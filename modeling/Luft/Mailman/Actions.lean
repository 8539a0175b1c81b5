import Luft.Lib.Grouped
import Luft.Lib.Runs
import Luft.Mailman.Server

/-!
# Actions on messages

What the person does to a message is done to the local store at once and queued for the server.  An
operation names a message by the UID its row has at that moment; a message with a move still queued
has none, and is named by its id with a `~` in front, to be looked up when its turn comes
(`resolve`).  The worker tries the first operation of the queue until it succeeds or was tried often
enough.

`Account` is the store, the queue and the server of one account, and `Account.step` one event of
any of the three.
-/

set_option autoImplicit false

namespace Mailman

open Grouped

/-! ## The store -/

/-- What a row knows of its message on the server: the UID, or `~` and its own id while the message
is on its way. -/
inductive Remote
  | uid (uid : Nat)
  | moved (id : Nat)
  deriving DecidableEq, Repr

def Remote.isMoved : Remote → Bool
  | .uid _ => false
  | .moved _ => true

/-- A row.  `mail` is the message it is about and `home` the mailbox that gave out the UID it has,
in its present numbering; neither is stored. -/
structure Message where
  id : Nat
  mailbox : Nat
  remote : Remote
  mail : Nat
  home : Option Nat
  deriving DecidableEq, Repr

def nextMessage (rows : List Message) : Nat := rows.foldr (fun row most ↦ max row.id most) 0 + 1

/-- Store a message of the server, unless a row of the mailbox has its UID. -/
def insertMessage (rows : List Message) (mailbox uid mail : Nat) : List Message :=
  if rows.any fun row ↦ row.mailbox = mailbox ∧ row.remote = .uid uid then rows
  else rows ++ [⟨nextMessage rows, mailbox, .uid uid, mail, some mailbox⟩]

def removeRemotes (rows : List Message) (mailbox : Nat) (uids : List Nat) : List Message :=
  rows.filter fun row ↦ ¬(row.mailbox = mailbox ∧ ∃ uid ∈ uids, row.remote = .uid uid)

def clearMailbox (rows : List Message) (mailbox : Nat) : List Message :=
  rows.filter (·.mailbox ≠ mailbox)

def relocate (rows : List Message) (ids : List Nat) (target : Nat) : List Message :=
  rows.map fun row ↦
    if row.id ∈ ids ∧ row.mailbox ≠ target then
      { row with mailbox := target, remote := .moved row.id, home := none }
    else row

/-- No other row of the mailbox has the UID. -/
def isFree (rows : List Message) (row : Message) (uid : Nat) : Bool :=
  rows.all fun other ↦
    other.id = row.id ∨ other.mailbox ≠ row.mailbox ∨ other.remote ≠ .uid uid

/-- A row can take the UID. -/
def settles (rows : List Message) (id uid : Nat) : Bool :=
  (rows.find? (·.id = id)).any (isFree rows · uid)

/-- Note the UID a message has in its new mailbox.  A row that cannot have it, or that it is not
known for, goes unless it has another. -/
def settleRemote (rows : List Message) (id : Nat) (remote : Option Nat) (target : Nat) :
    List Message :=
  match remote.filter (settles rows id) with
  | some uid =>
    rows.map fun row ↦
      if row.id = id then { row with remote := .uid uid, home := some target } else row
  | none => rows.filter fun row ↦ ¬(row.id = id ∧ row.remote.isMoved)

def currentRemote (rows : List Message) (id : Nat) : Option Remote :=
  (rows.find? (·.id = id)).map (·.remote)

def forget (rows : List Message) (ids : List Nat) : List Message :=
  rows.filter (·.id ∉ ids)

section Store

variable {rows : List Message}

theorem lt_nextMessage {row : Message} (h : row ∈ rows) : row.id < nextMessage rows := by
  rw [nextMessage, Nat.lt_succ_iff]
  induction rows with
  | nil => cases h
  | cons first rows ih =>
    rcases List.mem_cons.1 h with rfl | h
    · exact le_max_left _ _
    · exact (ih h).trans (le_max_right _ _)

theorem mem_insertMessage {mailbox uid mail : Nat} {row : Message}
    (h : row ∈ insertMessage rows mailbox uid mail) :
    row ∈ rows ∨ row = ⟨nextMessage rows, mailbox, .uid uid, mail, some mailbox⟩ := by
  rw [insertMessage] at h
  by_cases hany : rows.any fun row ↦ row.mailbox = mailbox ∧ row.remote = .uid uid
  · rw [if_pos hany] at h
    exact .inl h
  · rw [if_neg hany, List.mem_append, List.mem_singleton] at h
    exact h

theorem insertMessage_key {mailbox uid mail : Nat} (h : (rows.map (·.id)).Nodup) :
    ((insertMessage rows mailbox uid mail).map (·.id)).Nodup := by
  rw [insertMessage]
  by_cases hany : rows.any fun row ↦ row.mailbox = mailbox ∧ row.remote = .uid uid
  · rw [if_pos hany]
    exact h
  · rw [if_neg hany, List.map_append, List.nodup_append]
    refine ⟨h, List.nodup_singleton _, ?_⟩
    intro id hid id' hid'
    obtain ⟨row, hrow, rfl⟩ := List.mem_map.1 hid
    rw [List.mem_singleton.1 hid']
    exact (lt_nextMessage hrow).ne

/-- A row after a relocation. -/
theorem mem_relocate {ids : List Nat} {target : Nat} {row : Message} :
    row ∈ relocate rows ids target ↔ ∃ row' ∈ rows,
      row = if row'.id ∈ ids ∧ row'.mailbox ≠ target then
        { row' with mailbox := target, remote := .moved row'.id, home := none } else row' := by
  rw [relocate, List.mem_map]
  exact exists_congr fun row' ↦ and_congr_right fun _ ↦ eq_comm

theorem relocate_key (ids : List Nat) (target : Nat) :
    (relocate rows ids target).map (·.id) = rows.map (·.id) := by
  rw [relocate, List.map_map]
  refine List.map_congr_left fun row _ ↦ ?_
  by_cases hr : row.id ∈ ids ∧ row.mailbox ≠ target
  · rw [Function.comp_apply, if_pos hr]
  · rw [Function.comp_apply, if_neg hr]

theorem mem_relocate_of_notMem {ids : List Nat} {target : Nat} {row : Message} (h : row ∈ rows)
    (hid : row.id ∉ ids) : row ∈ relocate rows ids target :=
  mem_relocate.2 ⟨row, h, (if_neg fun hr ↦ hid hr.1).symm⟩

/-- A row that is settled: it is another row, or it has the UID now. -/
theorem mem_settleRemote {id target : Nat} {remote : Option Nat} {row : Message}
    (h : row ∈ settleRemote rows id remote target) : ∃ row' ∈ rows, row = row' ∨
      row'.id = id ∧ ∃ uid, remote = some uid ∧
        row = { row' with remote := .uid uid, home := some target } := by
  rw [settleRemote] at h
  rcases hr : remote.filter (settles rows id) with - | uid
  · rw [hr] at h
    exact ⟨row, (List.mem_filter.1 h).1, .inl rfl⟩
  · rw [hr] at h
    obtain ⟨row', hrow', rfl⟩ := List.mem_map.1 h
    refine ⟨row', hrow', ?_⟩
    by_cases hid : row'.id = id
    · rw [if_pos hid]
      exact .inr ⟨hid, uid, (Option.filter_eq_some_iff.1 hr).1, rfl⟩
    · rw [if_neg hid]
      exact .inl rfl

theorem settleRemote_key (id target : Nat) (remote : Option Nat) :
    ((settleRemote rows id remote target).map (·.id)).Sublist (rows.map (·.id)) := by
  rw [settleRemote]
  rcases hr : remote.filter (settles rows id) with - | uid
  · exact List.filter_sublist.map _
  · rw [List.map_map]
    refine (List.map_congr_left fun row _ ↦ ?_) ▸ List.Sublist.refl _
    by_cases hid : row.id = id
    · rw [Function.comp_apply, if_pos hid]
    · rw [Function.comp_apply, if_neg hid]

theorem mem_settleRemote_of_ne {id target : Nat} {remote : Option Nat} {row : Message}
    (h : row ∈ rows) (hid : row.id ≠ id) : row ∈ settleRemote rows id remote target := by
  rw [settleRemote]
  rcases hr : remote.filter (settles rows id) with - | uid
  · exact List.mem_filter.2 ⟨h, decide_eq_true fun hr ↦ hid hr.1⟩
  · exact List.mem_map.2 ⟨row, h, if_neg hid⟩

/-- Settling leaves no row of the message on its way. -/
theorem not_isMoved_of_settleRemote {id target : Nat} {remote : Option Nat} {row : Message}
    (h : row ∈ settleRemote rows id remote target) (hid : row.id = id) :
    row.remote.isMoved = false := by
  rw [settleRemote] at h
  rcases hr : remote.filter (settles rows id) with - | uid
  · rw [hr] at h
    have := of_decide_eq_true (List.mem_filter.1 h).2
    simpa [hid] using this
  · rw [hr] at h
    obtain ⟨row', hrow', rfl⟩ := List.mem_map.1 h
    by_cases hid' : row'.id = id
    · rw [if_pos hid']
      rfl
    · rw [if_neg hid'] at hid
      exact absurd hid hid'

theorem find?_eq_some_of_key (hkey : (rows.map (·.id)).Nodup) {row : Message} (hrow : row ∈ rows) :
    rows.find? (·.id = row.id) = some row := by
  rcases hfind : rows.find? (·.id = row.id) with - | found
  · exact absurd (List.find?_eq_none.1 hfind row hrow) (by simp)
  · rw [hfind, List.inj_on_of_nodup_map hkey (List.mem_of_find?_eq_some hfind) hrow
      (by simpa using List.find?_some hfind)]

end Store

/-! ## Operations -/

/-- A message an operation is about; `mail` is the one that was meant. -/
structure Target where
  id : Nat
  remote : Remote
  mail : Nat
  deriving DecidableEq, Repr

inductive Operation
  | flag (mailbox : Nat) (messages : List Target) (flag : Flag) (value : Bool)
  | move (source target : Nat) (messages : List Target)
  | destroy (mailbox : Nat) (messages : List Target)
  deriving DecidableEq, Repr

namespace Operation

/-- The mailbox the server has to select. -/
def mailbox : Operation → Nat
  | .flag mailbox _ _ _ => mailbox
  | .move source _ _ => source
  | .destroy mailbox _ => mailbox

def messages : Operation → List Target
  | .flag _ messages _ _ => messages
  | .move _ _ messages => messages
  | .destroy _ messages => messages

/-- Where the messages go. -/
def target? : Operation → Option Nat
  | .move _ target _ => some target
  | _ => none

/-- The operation is about the message with this id. -/
def concerns (op : Operation) (id : Nat) : Bool := op.messages.any (·.id = id)

/-- The operation is about the message, and has no UID for it. -/
def waitsFor (op : Operation) (id : Nat) : Bool :=
  op.messages.any fun t ↦ t.id = id ∧ t.remote.isMoved

end Operation

/-- The messages whose UID is known by now. -/
def resolve (rows : List Message) (messages : List Target) : List (Target × Nat) :=
  messages.filterMap fun moved ↦
    match if moved.remote.isMoved then currentRemote rows moved.id else some moved.remote with
    | some (.uid uid) => some (moved, uid)
    | _ => none

theorem mem_resolve {rows : List Message} {messages : List Target} {t : Target} {uid : Nat}
    (h : (t, uid) ∈ resolve rows messages) : t ∈ messages ∧
      (t.remote = .uid uid ∨
        t.remote.isMoved ∧ ∃ row ∈ rows, row.id = t.id ∧ row.remote = .uid uid) := by
  rw [resolve, List.mem_filterMap] at h
  obtain ⟨moved, hmoved, h⟩ := h
  by_cases hm : moved.remote.isMoved
  · rw [if_pos hm] at h
    rcases hfind : rows.find? (·.id = moved.id) with - | row
    · rw [currentRemote, hfind] at h
      cases h
    · rw [currentRemote, hfind] at h
      rcases hr : row.remote with uid' | id
      · rw [Option.map_some, hr] at h
        obtain ⟨rfl, rfl⟩ := Prod.mk.inj (Option.some.inj h)
        exact ⟨hmoved, .inr ⟨hm, row, List.mem_of_find?_eq_some hfind,
          by simpa using List.find?_some hfind, hr⟩⟩
      · rw [Option.map_some, hr] at h
        cases h
  · rw [if_neg hm] at h
    rcases hr : moved.remote with uid' | id
    · rw [hr] at h
      obtain ⟨rfl, rfl⟩ := Prod.mk.inj (Option.some.inj h)
      exact ⟨hmoved, .inl hr⟩
    · rw [hr] at h
      cases h

/-- A message whose row has a UID is found. -/
theorem exists_resolve {rows : List Message} {messages : List Target} {row : Message} {t : Target}
    {uid : Nat} (hkey : (rows.map (·.id)).Nodup) (hrow : row ∈ rows) (hu : row.remote = .uid uid)
    (ht : t ∈ messages) (hid : t.id = row.id) : ∃ uid', (t, uid') ∈ resolve rows messages := by
  rcases hr : t.remote with uid' | k
  · refine ⟨uid', List.mem_filterMap.2 ⟨t, ht, ?_⟩⟩
    rw [hr]
    rfl
  · refine ⟨uid, List.mem_filterMap.2 ⟨t, ht, ?_⟩⟩
    rw [hr, currentRemote, hid, find?_eq_some_of_key hkey hrow, Option.map_some, hu]
    rfl

/-- Note the UIDs of the messages that moved, as the server answers. -/
def settleAll (rows : List Message) (answer : Nat → Option Nat) (target : Nat)
    (pairs : List (Target × Nat)) : List Message :=
  pairs.foldl (fun rows pair ↦ settleRemote rows pair.1.id (answer pair.2) target) rows

section SettleAll

variable {rows : List Message} {answer : Nat → Option Nat} {target : Nat}
  {pairs : List (Target × Nat)}

theorem settleAll_key : ((settleAll rows answer target pairs).map (·.id)).Sublist
    (rows.map (·.id)) := by
  induction pairs generalizing rows with
  | nil => exact List.Sublist.refl _
  | cons p pairs ih => exact ih.trans (settleRemote_key _ _ _)

/-- A row after settling: it is as before, or it has the UID the server told for its message. -/
theorem mem_settleAll {row : Message} (h : row ∈ settleAll rows answer target pairs) :
    ∃ row' ∈ rows, row'.id = row.id ∧ row'.mailbox = row.mailbox ∧ row'.mail = row.mail ∧
      (row' = row ∨ ∃ p ∈ pairs, p.1.id = row.id ∧
        ∃ uid, answer p.2 = some uid ∧ row.remote = .uid uid ∧ row.home = some target) := by
  induction pairs generalizing rows with
  | nil => exact ⟨row, h, rfl, rfl, rfl, .inl rfl⟩
  | cons p pairs ih =>
    obtain ⟨row', hrow', hid, hmailbox, hmail, hsame⟩ := ih h
    obtain ⟨row'', hrow'', rfl | ⟨hid', uid, hp, rfl⟩⟩ := mem_settleRemote hrow'
    · refine ⟨row', hrow'', hid, hmailbox, hmail, hsame.imp_right ?_⟩
      rintro ⟨p', hp', h'⟩
      exact ⟨p', List.mem_cons_of_mem p hp', h'⟩
    · refine ⟨row'', hrow'', hid, hmailbox, hmail, .inr ?_⟩
      rcases hsame with rfl | ⟨p', hp', h'⟩
      · exact ⟨p, List.mem_cons_self, hid'.symm, uid, hp, rfl, rfl⟩
      · exact ⟨p', List.mem_cons_of_mem p hp', h'⟩

theorem mem_settleAll_of_ne {row : Message} (h : row ∈ rows) (hid : ∀ p ∈ pairs, p.1.id ≠ row.id) :
    row ∈ settleAll rows answer target pairs := by
  induction pairs generalizing rows with
  | nil => exact h
  | cons p pairs ih =>
    exact ih (mem_settleRemote_of_ne h (hid p List.mem_cons_self).symm)
      fun p' hp' ↦ hid p' (List.mem_cons_of_mem p hp')

/-- Settling leaves no row of the messages on its way. -/
theorem not_isMoved_of_settleAll {row : Message} (h : row ∈ settleAll rows answer target pairs)
    (hsome : ∃ p ∈ pairs, p.1.id = row.id) : row.remote.isMoved = false := by
  induction pairs generalizing rows with
  | nil => simp at hsome
  | cons p pairs ih =>
    by_cases hrest : ∃ p' ∈ pairs, p'.1.id = row.id
    · exact ih h hrest
    · have h : row ∈ settleAll (settleRemote rows p.1.id (answer p.2) target) answer target pairs := h
      obtain ⟨row', hrow', -, -, -, rfl | ⟨p', hp', hid, -⟩⟩ := mem_settleAll h
      · obtain ⟨q, hq, hqid⟩ := hsome
        rcases List.mem_cons.1 hq with rfl | hq
        · exact not_isMoved_of_settleRemote hrow' hqid.symm
        · exact absurd ⟨q, hq, hqid⟩ hrest
      · exact absurd ⟨p', hp', hid⟩ hrest

/-- A message keeps its row and gets the UID it is told, if no row of its mailbox has it and no
other message is told the same. -/
theorem exists_settleAll {row : Message} (hkey : (rows.map (·.id)).Nodup) (hrow : row ∈ rows)
    (htold : ∀ p ∈ pairs, p.1.id = row.id → ∃ new, answer p.2 = some new ∧ isFree rows row new ∧
      ∀ p' ∈ pairs, p'.1.id ≠ row.id → answer p'.2 ≠ some new) :
    ∃ row' ∈ settleAll rows answer target pairs, row'.id = row.id ∧
      ((∃ p ∈ pairs, p.1.id = row.id) ∨ row.home = some target → row'.home = some target) := by
  induction pairs generalizing rows row with
  | nil => exact ⟨row, hrow, rfl, fun hsome ↦ hsome.resolve_left (by simp)⟩
  | cons p pairs ih =>
    have hkey' : ((settleRemote rows p.1.id (answer p.2) target).map (·.id)).Nodup :=
      (settleRemote_key _ _ _).nodup hkey
    have hrest : ∀ row'' : Message, row''.id = row.id → row''.mailbox = row.mailbox →
        ∀ p' ∈ pairs, p'.1.id = row''.id → ∃ new, answer p'.2 = some new ∧
          isFree (settleRemote rows p.1.id (answer p.2) target) row'' new ∧
            ∀ q ∈ pairs, q.1.id ≠ row''.id → answer q.2 ≠ some new := by
      intro row'' hid'' hmailbox p' hp' hpid
      obtain ⟨new, hnew, hfree, hother⟩ := htold p' (List.mem_cons_of_mem p hp') (hpid.trans hid'')
      refine ⟨new, hnew, ?_, fun q hq hne ↦ ?_⟩
      · rw [isFree, List.all_eq_true]
        intro other hother'
        obtain ⟨other', hmem, rfl | ⟨hpid', uid, hans, rfl⟩⟩ := mem_settleRemote hother'
        · rw [hid'', hmailbox]
          exact List.all_eq_true.1 hfree other hmem
        · by_cases hsame : p.1.id = row.id
          · exact decide_eq_true (.inl (hpid'.trans (hsame.trans hid''.symm)))
          · refine decide_eq_true (.inr (.inr fun heq ↦ ?_))
            have := hother p List.mem_cons_self hsame
            rw [hans, Remote.uid.inj heq] at this
            exact this rfl
      · exact hother q (List.mem_cons_of_mem p hq) (hid'' ▸ hne)
    by_cases hp : p.1.id = row.id
    · obtain ⟨new, hnew, hfree, -⟩ := htold p List.mem_cons_self hp
      set settled : Message := { row with remote := .uid new, home := some target }
      have hmem : settled ∈ settleRemote rows p.1.id (answer p.2) target := by
        rw [hp, hnew, settleRemote, Option.filter_some,
          if_pos (by rw [settles, find?_eq_some_of_key hkey hrow]; exact hfree)]
        exact List.mem_map.2 ⟨row, hrow, if_pos rfl⟩
      obtain ⟨row', hrow', hid, hhome⟩ := ih hkey' hmem (hrest settled rfl rfl)
      exact ⟨row', hrow', hid, fun _ ↦ hhome (.inr rfl)⟩
    · obtain ⟨row', hrow', hid, hhome⟩ :=
        ih hkey' (mem_settleRemote_of_ne hrow fun heq ↦ hp heq.symm) (hrest row rfl rfl)
      refine ⟨row', hrow', hid, fun hsome ↦ hhome (hsome.imp_left ?_)⟩
      rintro ⟨q, hq, hqid⟩
      rcases List.mem_cons.1 hq with rfl | hq
      · exact absurd hqid hp
      · exact ⟨q, hq, hqid⟩

theorem home_of_settleAll {row : Message} (hkey : (rows.map (·.id)).Nodup) (hrow : row ∈ rows)
    (htold : ∀ p ∈ pairs, p.1.id = row.id → ∃ new, answer p.2 = some new ∧ isFree rows row new ∧
      ∀ p' ∈ pairs, p'.1.id ≠ row.id → answer p'.2 ≠ some new)
    (hsome : (∃ p ∈ pairs, p.1.id = row.id) ∨ row.home = some target) {row' : Message}
    (h : row' ∈ settleAll rows answer target pairs) (hid : row'.id = row.id) :
    row'.home = some target := by
  obtain ⟨row'', hrow'', hid'', hhome⟩ := exists_settleAll hkey hrow htold
  rw [List.inj_on_of_nodup_map (settleAll_key.nodup hkey) h hrow'' (hid.trans hid''.symm)]
  exact hhome hsome

end SettleAll

structure Item where
  operation : Operation
  attempts : Nat
  deriving DecidableEq, Repr

def giveUpAfter : Nat := 5

/-! ## An account -/

/-- A pair of a mailbox and a UID in a command, with the message that was meant and what the pair
named when the command was sent. -/
structure Command where
  mailbox : Nat
  uid : Nat
  meant : Nat
  named : List Nat
  deriving DecidableEq, Repr

structure Account where
  rows : List Message
  queue : List Item
  server : Server
  sent : List Command

/-- Where a message is to go. -/
structure Placement where
  id : Nat
  mailbox : Nat
  deriving DecidableEq, Repr

/-- What came of trying an operation. -/
inductive Outcome
  /-- The server did it; it may tell which UIDs the messages got. -/
  | done (told : Bool)
  /-- It failed, with the command sent or before that.  What the server did of it all the same comes
  as events of the server. -/
  | failed (reached : Bool)
  /-- The server did it, and the program ended with so many of the rows settled. -/
  | interrupted (told : Bool) (settled : Nat)

/-- What the person can do. -/
inductive Action
  | flag (ids : List Nat) (flag : Flag) (value : Bool)
  /-- A move, or the undo of one. -/
  | relocate (moves : List Placement)
  | destroy (ids : List Nat)

/-- One event of an account. -/
inductive AccountStep
  /-- The person does something. -/
  | act (action : Action)
  /-- The worker tries the first operation. -/
  | attempt (outcome : Outcome)
  /-- A message comes in, from outside or from another client. -/
  | arrive (mailbox mail : Nat) (marks : Marks)
  /-- Another client removes messages or changes their flags. -/
  | vanish (mailbox : Nat) (uids : List Nat)
  | mark (mailbox : Nat) (uids : List Nat) (flag : Flag) (value : Bool)
  /-- The server gives the mailbox another UIDVALIDITY. -/
  | renumber (mailbox : Nat) (uid : Nat → Nat)
  /-- A sync stores a message it read, drops messages that are gone, or drops a mailbox. -/
  | insert (mailbox uid mail : Nat)
  | remove (mailbox : Nat) (uids : List Nat)
  | clear (mailbox : Nat)

/-- The order of pairs, the first component first. -/
def pairLe (a b : Nat × Nat) : Bool := a.1 < b.1 ∨ a.1 = b.1 ∧ a.2 ≤ b.2

/-- Where a row leaves for, if it is not there. -/
def leavesFor (moves : List Placement) (row : Message) : Option (Message × Nat) :=
  (moves.reverse.find? (·.id = row.id)).bind fun place ↦
    if row.mailbox = place.mailbox then none else some (row, place.mailbox)

theorem leavesFor_fst {moves : List Placement} {row : Message} {m : Message × Nat}
    (h : leavesFor moves row = some m) : m.1 = row := by
  obtain ⟨place, -, hplace⟩ := Option.bind_eq_some_iff.1 h
  by_cases hm : row.mailbox = place.mailbox
  · rw [if_pos hm] at hplace
    cases hplace
  · rw [if_neg hm] at hplace
    rw [← Option.some.inj hplace]

namespace Message

def toTarget (row : Message) : Target := ⟨row.id, row.remote, row.mail⟩

end Message

namespace Account

variable (s : Account)

def locate (ids : List Nat) : List Message := s.rows.filter (·.id ∈ ids)

/-- Put an operation at the end of the queue. -/
def enqueue (operation : Operation) : Account := { s with queue := s.queue ++ [⟨operation, 0⟩] }

def flag (found : List Message) (flag : Flag) (value : Bool) : Account :=
  (grouped (· ≤ ·) (·.mailbox) found).foldl (fun s group ↦
    s.enqueue (.flag group.1 (group.2.map (·.toTarget)) flag value)) s

/-- The messages that are not where they go, with where they go. -/
def leaving (moves : List Placement) : List (Message × Nat) := s.rows.filterMap (leavesFor moves)

theorem leaving_ne {moves : List Placement} {m : Message × Nat} (h : m ∈ s.leaving moves) :
    m.2 ≠ m.1.mailbox := by
  obtain ⟨row, -, hrow⟩ := List.mem_filterMap.1 h
  obtain ⟨place, -, hplace⟩ := Option.bind_eq_some_iff.1 hrow
  by_cases hm : row.mailbox = place.mailbox
  · rw [if_pos hm] at hplace
    cases hplace
  · rw [if_neg hm] at hplace
    rw [← Option.some.inj hplace]
    exact fun heq ↦ hm heq.symm

/-- The messages that leave are rows, each at most once. -/
theorem leaving_sublist (moves : List Placement) : ((s.leaving moves).map (·.1)).Sublist s.rows := by
  rw [leaving]
  induction s.rows with
  | nil => exact List.Sublist.refl _
  | cons row rows ih =>
    rcases h : leavesFor moves row with - | m
    · rw [List.filterMap_cons_none h]
      exact ih.cons row
    · rw [List.filterMap_cons_some h, List.map_cons, leavesFor_fst h]
      exact ih.cons_cons row

/-- Relocate what goes from one mailbox to another, and queue the move. -/
def moveGroup (source target : Nat) (found : List (Message × Nat)) : Account :=
  let rows := Mailman.relocate s.rows (found.map (·.1.id)) target
  enqueue { s with rows } (.move source target (found.map (·.1.toTarget)))

def relocate (moves : List (Message × Nat)) : Account :=
  (grouped pairLe (fun m ↦ (m.1.mailbox, m.2)) moves).foldl (fun s group ↦
    s.moveGroup group.1.1 group.1.2 group.2) s

/-- How to take a move back. -/
def undo (moves : List (Message × Nat)) : List Placement :=
  moves.map fun (row, _) ↦ ⟨row.id, row.mailbox⟩

def destroy (found : List Message) : Account :=
  let forgotten := { s with rows := forget s.rows (found.map (·.id)) }
  (grouped (· ≤ ·) (·.mailbox) found).foldl (fun s group ↦
    s.enqueue (.destroy group.1 (group.2.map (·.toTarget)))) forgotten

/-- The pairs an operation names. -/
def commands (op : Operation) : List Command :=
  (resolve s.rows op.messages).map fun (t, uid) ↦
    ⟨op.mailbox, uid, t.mail, s.server.named op.mailbox uid⟩

/-- The UID the server tells for a message that moved. -/
def answer (op : Operation) (told : Bool) (uid : Nat) : Option Nat :=
  match op with
  | .move source target messages =>
    if told then
      ((s.server.copyUid source ((resolve s.rows messages).map (·.2)) target).find?
        (·.1 = uid)).map (·.2)
    else none
  | _ => none

/-- Do an operation, and settle the first `settled` of the rows. -/
def apply (op : Operation) (told : Bool) (settled : Nat) : Account :=
  let pairs := resolve s.rows op.messages
  let uids := pairs.map (·.2)
  if pairs = [] then s
  else
    match op with
    | .flag mailbox _ flag value => { s with server := s.server.storeFlag mailbox uids flag value }
    | .move source target messages =>
      { s with
        server := s.server.moveMessages source uids target
        rows := settleAll s.rows (s.answer (.move source target messages) told) target
          (pairs.take settled) }
    | .destroy mailbox _ => { s with server := s.server.expunge mailbox uids }

def log (op : Operation) : Account := { s with sent := s.commands op ++ s.sent }

/-- The worker tries the first operation of the queue. -/
def attempt (outcome : Outcome) : Account :=
  match s.queue with
  | [] => s
  | item :: rest =>
    match outcome with
    | .done told =>
      { (s.apply item.operation told (resolve s.rows item.operation.messages).length) with
        queue := rest
        sent := s.commands item.operation ++ s.sent }
    | .failed reached =>
      { s with
        queue :=
          if item.attempts + 1 ≥ giveUpAfter then rest
          else { item with attempts := item.attempts + 1 } :: rest
        sent := if reached then s.commands item.operation ++ s.sent else s.sent }
    | .interrupted told settled =>
      { (s.apply item.operation told settled) with
        sent := s.commands item.operation ++ s.sent }

def act : Action → Account
  | .flag ids flag value => s.flag (s.locate ids) flag value
  | .relocate moves => s.relocate (s.leaving moves)
  | .destroy ids => s.destroy (s.locate ids)

def step (e : AccountStep) (s : Account) : Account :=
  match e with
  | .act action => s.act action
  | .attempt outcome => s.attempt outcome
  | .arrive mailbox mail marks => { s with server := s.server.arrive mailbox mail marks }
  | .vanish mailbox uids => { s with server := s.server.purge (Server.picks mailbox uids) }
  | .mark mailbox uids flag value =>
    { s with server := s.server.storeFlag mailbox uids flag value }
  | .renumber mailbox uid =>
    { s with
      server := s.server.renumber mailbox uid
      rows := s.rows.map fun row ↦
        if row.home = some mailbox then { row with home := none } else row }
  | .insert mailbox uid mail =>
    if s.server.Names mailbox uid mail then
      { s with rows := insertMessage s.rows mailbox uid mail }
    else s
  | .remove mailbox uids => { s with rows := removeRemotes s.rows mailbox uids }
  | .clear mailbox => { s with rows := clearMailbox s.rows mailbox }

end Account

end Mailman

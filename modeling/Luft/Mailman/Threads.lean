import Luft.Lib.Gathering

/-!
# Threads

A message that comes in joins the thread of the first message it names that is known, and starts one
otherwise; from then on the messages it names lead to that thread.  They lead there whether they are
there or not, so an answer that comes before what it answers does not lose it.

Two messages that turn out to belong together stay apart, though, once they are in two threads: links
are only ever added.  The threads are the same for every order and every batching exactly where naming
a message in common goes on from message to message (`threads_iff`).
-/

set_option autoImplicit false

namespace Mailman

namespace Threads

open Gathering

structure Envelope where
  message_id : Option String
  in_reply_to : Option String
  references : List String
  deriving DecidableEq, Repr

structure NewMessage where
  remote : String
  envelope : Envelope
  deriving DecidableEq, Repr

/-- A row of `messages`, with what tells it apart and its thread. -/
structure Row where
  id : ℕ
  mailbox : ℕ
  remote : String
  thread : ℕ := 0
  deriving DecidableEq, Repr

structure Store where
  messages : List Row := []
  /-- By `message_id`, which is the primary key. -/
  links : List (String × ℕ) := []
  deriving DecidableEq, Repr

/-- The id that the next row gets. -/
def Store.nextId (s : Store) : ℕ := (s.messages.map (·.id)).foldr max 0 + 1

/-- A row of that mailbox and name is left as it is. -/
def insert (s : Store) (mailbox : ℕ) (message : NewMessage) : Store × Option ℕ :=
  if s.messages.any fun row ↦ row.mailbox = mailbox ∧ row.remote = message.remote then (s, none)
  else
    let id := s.nextId
    ({ s with messages := s.messages ++ [{ id, mailbox, remote := message.remote }] }, some id)

/-- The messages that one names, itself among them. -/
def related (envelope : Envelope) : List String :=
  envelope.references ++ envelope.in_reply_to.toList ++ envelope.message_id.toList

/-- `INSERT OR IGNORE INTO links`. -/
def link (thread : ℕ) (links : List (String × ℕ)) (message_id : String) : List (String × ℕ) :=
  if (links.lookup message_id).isSome then links else links ++ [(message_id, thread)]

def thread_for (s : Store) (id : ℕ) (envelope : Envelope) : Store × ℕ :=
  let thread := ((related envelope).findSome? (s.links.lookup ·)).getD id
  ({ s with links := (related envelope).foldl (link thread) s.links }, thread)

/-- `UPDATE messages SET thread = ?2 WHERE id = ?1`. -/
def Store.setThread (s : Store) (id thread : ℕ) : Store :=
  { s with messages := s.messages.map fun row ↦ if row.id = id then { row with thread } else row }

def insertMessage (mailbox : ℕ) (state : Store × List ℕ) (message : NewMessage) : Store × List ℕ :=
  match insert state.1 mailbox message with
  | (s, none) => (s, state.2)
  | (s, some id) =>
    let (s, thread) := thread_for s id message.envelope
    (s.setThread id thread, state.2 ++ [id])

/-- The store afterwards, and the ids of the messages that are new. -/
def insert_messages (s : Store) (mailbox : ℕ) (messages : List NewMessage) : Store × List ℕ :=
  messages.foldl (insertMessage mailbox) (s, [])

/-! ## Messages that come in batches -/

/-- Where a message is, and what the server calls it there. -/
structure Place where
  mailbox : ℕ
  remote : String
  deriving DecidableEq, Repr

/-- Some messages of a mailbox, by what the server calls them. -/
structure Batch where
  mailbox : ℕ
  remotes : List String
  deriving DecidableEq, Repr

def Batch.places (batch : Batch) : List Place := batch.remotes.map (⟨batch.mailbox, ·⟩)

variable (envelope : Place → Envelope)

def Batch.messages (batch : Batch) : List NewMessage :=
  batch.remotes.map fun remote ↦ ⟨remote, envelope ⟨batch.mailbox, remote⟩⟩

/-- The store after some batches have come in, from an empty one. -/
def after (batches : List Batch) : Store :=
  batches.foldl (fun s batch ↦ (insert_messages s batch.mailbox (batch.messages envelope)).1) {}

/-- The thread of a message. -/
def Store.threadOf (s : Store) (p : Place) : Option ℕ :=
  (s.messages.find? fun row ↦ row.mailbox = p.mailbox ∧ row.remote = p.remote).map (·.thread)

/-- All of the messages come, and no others, in any order and any batches, some more than once. -/
def Brings (batches : List Batch) (S : List Place) : Prop := ∀ p, p ∈ batches.flatMap Batch.places ↔ p ∈ S

/-- Messages are in one thread in one store if they are in the other. -/
def SameThreads (S : List Place) (s s' : Store) : Prop :=
  ∀ p ∈ S, ∀ q ∈ S, s.threadOf p = s.threadOf q ↔ s'.threadOf p = s'.threadOf q

/-- The messages that a message at that place names. -/
def names (p : Place) : List String := related (envelope p)

example : (after (fun p ↦ ⟨some p.remote, none, if p.remote = "c" then ["a", "b"] else []⟩)
    [⟨1, ["a", "b"]⟩, ⟨1, ["c"]⟩]).messages.map (·.thread) = [1, 2, 1] := by decide

/-! ## One message -/

section

variable {envelope} {s : Store}

/-- Which threads the messages are in, and which the links lead to. -/
def Store.groups (s : Store) : Groups Place String := ⟨s.threadOf, (s.links.lookup ·)⟩

theorem lookup_link (thread : ℕ) (links : List (String × ℕ)) (first m : String) :
    (link thread links first).lookup m =
      if m = first ∧ links.lookup m = none then some thread else links.lookup m := by
  rw [link]
  split_ifs with hknown hnew hnew
  · rw [← hnew.1, hnew.2] at hknown
    exact absurd hknown Bool.false_ne_true
  · rfl
  · rw [List.lookup_append, hnew.2, hnew.1]
    simp
  · rw [List.lookup_append]
    cases hm : links.lookup m with
    | some _ => rfl
    | none =>
      have hne : m ≠ first := fun heq ↦ hnew ⟨heq, hm⟩
      simp [List.lookup_cons, beq_false_of_ne hne]

/-- A link that is there stays, and the others lead to the thread. -/
theorem lookup_links (thread : ℕ) (named : List String) (links : List (String × ℕ)) (m : String) :
    (named.foldl (link thread) links).lookup m =
      if m ∈ named ∧ links.lookup m = none then some thread else links.lookup m := by
  induction named generalizing links with
  | nil => rw [List.foldl_nil, if_neg fun h ↦ absurd h.1 List.not_mem_nil]
  | cons first named ih =>
    rw [List.foldl_cons, ih, lookup_link]
    by_cases hnone : links.lookup m = none
    · by_cases hfirst : m = first
      · simp [hfirst, hfirst ▸ hnone]
      · simp [hfirst, hnone]
    · simp [hnone]

theorem id_lt_nextId {row : Row} (h : row ∈ s.messages) : row.id < s.nextId := by
  rw [Store.nextId, Nat.lt_succ_iff]
  have hmem : row.id ∈ s.messages.map (·.id) := List.mem_map_of_mem h
  revert hmem
  generalize s.messages.map (·.id) = ids
  intro hmem
  induction ids with
  | nil => exact absurd hmem List.not_mem_nil
  | cons id ids ih =>
    rw [List.foldr_cons]
    rcases List.mem_cons.1 hmem with rfl | hmem
    · exact Nat.le_max_left ..
    · exact Nat.le_trans (ih hmem) (Nat.le_max_right ..)

theorem threadOf_eq_none {p : Place} : s.threadOf p = none ↔
    (s.messages.any fun row ↦ row.mailbox = p.mailbox ∧ row.remote = p.remote) = false := by
  rw [Store.threadOf, Option.map_eq_none_iff, List.find?_eq_none, List.any_eq_false]

/-- A message that is there already changes nothing. -/
theorem insertMessage_again {p : Place} (h : s.threadOf p ≠ none) (ids : List ℕ) :
    insertMessage p.mailbox (s, ids) ⟨p.remote, envelope p⟩ = (s, ids) := by
  rw [ne_eq, threadOf_eq_none, Bool.not_eq_false] at h
  rw [insertMessage, insert, if_pos h]

/-- Only the new row gets the thread. -/
theorem setThread_append (links : List (String × ℕ)) (row : Row) (hnew : ∀ r ∈ s.messages, r.id ≠ row.id)
    (thread : ℕ) : Store.setThread ⟨s.messages ++ [row], links⟩ row.id thread =
      ⟨s.messages ++ [{ row with thread }], links⟩ := by
  have hold : s.messages.map (fun r ↦ if r.id = row.id then { r with thread } else r) = s.messages := by
    refine (List.map_congr_left fun r hr ↦ ?_).trans (List.map_id _)
    exact if_neg (hnew r hr)
  rw [Store.setThread, List.map_append, hold, List.map_singleton, if_pos rfl]

theorem insertMessage_new {p : Place} (h : s.threadOf p = none) (ids : List ℕ) :
    (insertMessage p.mailbox (s, ids) ⟨p.remote, envelope p⟩).1 =
      ⟨s.messages ++ [⟨s.nextId, p.mailbox, p.remote,
          ((names envelope p).findSome? (s.links.lookup ·)).getD s.nextId⟩],
        (names envelope p).foldl
          (link (((names envelope p).findSome? (s.links.lookup ·)).getD s.nextId)) s.links⟩ := by
  rw [threadOf_eq_none] at h
  rw [insertMessage, insert, if_neg (by rw [h]; exact Bool.false_ne_true)]
  exact setThread_append _ ⟨s.nextId, p.mailbox, p.remote, 0⟩ (fun r hr ↦ Nat.ne_of_lt (id_lt_nextId hr)) _

/-- A message that is new joins the others as its names say. -/
theorem insertMessage_adds {p : Place} (h : s.threadOf p = none) (ids : List ℕ) :
    Adds (names envelope) p s.nextId s.groups
      (insertMessage p.mailbox (s, ids) ⟨p.remote, envelope p⟩).1.groups := by
  rw [insertMessage_new h]
  have hnone := h
  rw [Store.threadOf, Option.map_eq_none_iff] at hnone
  constructor
  · show Store.threadOf _ p = _
    rw [Store.threadOf, List.find?_append, hnone]
    simp
    rfl
  · intro q hq
    show Store.threadOf _ q = s.threadOf q
    rw [Store.threadOf, Store.threadOf, List.find?_append]
    have hother : ¬ (p.mailbox = q.mailbox ∧ p.remote = q.remote) := by
      rintro ⟨hmailbox, hremote⟩
      cases p
      cases q
      exact hq (congrArg₂ Place.mk hmailbox hremote).symm
    simp [hother]
  · intro m
    exact lookup_links _ _ _ m

theorem nextId_lt {p : Place} (h : s.threadOf p = none) (ids : List ℕ) :
    s.nextId < (insertMessage p.mailbox (s, ids) ⟨p.remote, envelope p⟩).1.nextId := by
  rw [insertMessage_new h]
  exact @id_lt_nextId ⟨_, _⟩ ⟨s.nextId, _, _, _⟩ (List.mem_append_right _ List.mem_cons_self)

end

/-! ## Runs -/

/-- What is in the store is what came in, gathered by the names. -/
def Holds (items : List Place) (s : Store) : Prop :=
  ∃ bound, Gathered (names envelope) items bound s.groups ∧ bound ≤ s.nextId

section

variable {envelope}

theorem holds_insertMessage {items : List Place} (state : Store × List ℕ)
    (h : Holds envelope items state.1) (p : Place) :
    Holds envelope (items ++ [p]) (insertMessage p.mailbox state ⟨p.remote, envelope p⟩).1 := by
  obtain ⟨bound, hgathered, hle⟩ := h
  obtain ⟨s, ids⟩ := state
  by_cases hp : s.threadOf p = none
  · have hnew : p ∉ items := fun hmem ↦ by
      obtain ⟨n, hn⟩ := (hgathered.known.inside p).2 hmem
      exact Option.some_ne_none n (hn.symm.trans hp)
    exact ⟨s.nextId + 1, .adds hgathered hnew hle (insertMessage_adds hp ids), nextId_lt hp ids⟩
  · rw [insertMessage_again hp]
    exact ⟨bound, .again hgathered ((hgathered.known.inside p).1 (Option.ne_none_iff_exists'.1 hp)), hle⟩

theorem holds_insert_messages {items : List Place} {s : Store} (h : Holds envelope items s)
    (batch : Batch) :
    Holds envelope (items ++ batch.places) (insert_messages s batch.mailbox (batch.messages envelope)).1 := by
  obtain ⟨mailbox, remotes⟩ := batch
  rw [insert_messages, Batch.messages, Batch.places]
  generalize ([] : List ℕ) = ids
  induction remotes generalizing items s ids with
  | nil => rwa [List.map_nil, List.append_nil]
  | cons remote remotes ih =>
    have hone := holds_insertMessage (s, ids) h ⟨mailbox, remote⟩
    rw [List.map_cons, List.map_cons, List.foldl_cons, List.append_cons]
    exact ih hone _

variable (envelope) in
theorem holds_after (batches : List Batch) :
    Holds envelope (batches.flatMap Batch.places) (after envelope batches) := by
  induction batches using List.reverseRecOn with
  | nil => exact ⟨0, .none, Nat.zero_le _⟩
  | append_singleton batches batch ih =>
    rw [after, List.foldl_append, List.flatMap_append, List.flatMap_singleton]
    exact holds_insert_messages ih batch

/-! ## Any order -/

/-- Naming a message in common goes on from message to message. -/
def GoesOn (envelope : Place → Envelope) (S : List Place) : Prop := Goes (names envelope) (· ∈ S)

theorem sameThreads_of_goesOn {S : List Place} (h : GoesOn envelope S) {batches batches' : List Batch}
    (hbrings : Brings batches S) (hbrings' : Brings batches' S) :
    SameThreads S (after envelope batches) (after envelope batches') := by
  have htogether {batches : List Batch} (hbrings : Brings batches S) {p q : Place} (hp : p ∈ S)
      (hq : q ∈ S) : (after envelope batches).threadOf p = (after envelope batches).threadOf q ↔
        p = q ∨ Share (names envelope) p q := by
    obtain ⟨bound, hgathered, -⟩ := holds_after envelope batches
    refine hgathered.group_eq_iff (fun a m b ha hm hb ↦ ?_) ((hbrings p).2 hp) ((hbrings q).2 hq)
    exact h a m b ((hbrings a).1 ha) ((hbrings m).1 hm) ((hbrings b).1 hb)
  intro p hp q hq
  rw [htogether hbrings hp hq, htogether hbrings' hp hq]

/-- One batch for each message, two of them first. -/
def twoFirst (p q : Place) (S : List Place) : List Batch :=
  (p :: q :: S).map fun place ↦ ⟨place.mailbox, [place.remote]⟩

theorem brings_twoFirst {p q : Place} {S : List Place} (hp : p ∈ S) (hq : q ∈ S) :
    Brings (twoFirst p q S) S := by
  intro r
  have hplaces : (twoFirst p q S).flatMap Batch.places = p :: q :: S := by
    rw [twoFirst, List.flatMap_map]
    exact List.flatMap_singleton' _
  rw [hplaces, List.mem_cons, List.mem_cons]
  grind

theorem twoFirst_together {p q : Place} (hne : p ≠ q) (S : List Place) :
    (after envelope (twoFirst p q S)).threadOf p = (after envelope (twoFirst p q S)).threadOf q ↔
      Share (names envelope) p q := by
  obtain ⟨bound, hgathered, -⟩ := holds_after envelope (twoFirst p q S)
  have hplaces : (twoFirst p q S).flatMap Batch.places = p :: q :: S := by
    rw [twoFirst, List.flatMap_map]
    exact List.flatMap_singleton' _
  rw [hplaces] at hgathered
  exact hgathered.first_two hne

end

/-- **The order does not matter** exactly where naming a message in common goes on. -/
theorem threads_iff (S : List Place) :
    (∀ batches batches', Brings batches S → Brings batches' S →
      SameThreads S (after envelope batches) (after envelope batches')) ↔ GoesOn envelope S := by
  constructor
  · intro hsame a m b ha hm hb ham hmb
    by_cases hne : a = m
    · exact hne ▸ hmb
    by_cases hne' : m = b
    · exact hne' ▸ ham
    by_cases hne'' : a = b
    · obtain ⟨k, hk, -⟩ := ham
      exact ⟨k, hk, hne'' ▸ hk⟩
    -- each pair is together where it comes first, so it is where the outer two come first
    have hfirst {p q : Place} (hp : p ∈ S) (hq : q ∈ S) (hpq : p ≠ q) (hshare : Share (names envelope) p q) :
        (after envelope (twoFirst a b S)).threadOf p = (after envelope (twoFirst a b S)).threadOf q :=
      (hsame _ _ (brings_twoFirst hp hq) (brings_twoFirst ha hb) p hp q hq).1
        ((twoFirst_together hpq S).2 hshare)
    exact (twoFirst_together hne'' S).1 ((hfirst ha hm hne ham).trans (hfirst hm hb hne' hmb))
  · intro h batches batches' hbrings hbrings'
    exact sameThreads_of_goesOn h hbrings hbrings'

/-- Two messages and an answer to both of them. -/
theorem answer_to_both : ¬ ∀ (envelope : Place → Envelope) (S : List Place) (batches batches' : List Batch),
    Brings batches S → Brings batches' S →
      SameThreads S (after envelope batches) (after envelope batches') := by
  intro h
  let envelope (p : Place) : Envelope := ⟨some p.remote, none, if p.remote = "c" then ["a", "b"] else []⟩
  have hsame := h envelope [⟨1, "a"⟩, ⟨1, "b"⟩, ⟨1, "c"⟩] [⟨1, ["a", "b", "c"]⟩] [⟨1, ["c", "a", "b"]⟩]
    (fun _ ↦ Iff.rfl) (fun p ↦ by simp only [List.flatMap_cons, List.flatMap_nil, Batch.places]; grind)
    ⟨1, "a"⟩ (by decide) ⟨1, "b"⟩ (by decide)
  exact absurd hsame (by decide)

end Threads

end Mailman

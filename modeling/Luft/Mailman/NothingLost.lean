import Luft.Mailman.RightMessage

/-!
# No action is lost

Once everything that was queued has been done, the server is where it would be if each action had
been done on the server at once.  `Twin` runs the two side by side: the account with its queue, and
the list of messages an action is done to directly.  `Twin.Careful` says which turns lose nothing,
and `nothing_lost` is the result over runs of such turns.

An operation that is queued has an `effect` on the message it means, wherever the message is.  The
argument has two halves: the first operation of the queue does to the server what its effect is,
since it finds each of its messages (`Track`), and the operations an action queues have together the
effect of the action.
-/

set_option autoImplicit false

namespace Mailman

open Grouped

/-! ## What is done directly -/

/-- A message on the server, without the UID it has there. -/
structure Place where
  mail : Nat
  mailbox : Nat
  marks : Marks
  deriving DecidableEq, Repr

def Entry.place (e : Entry) : Place := ⟨e.mail, e.mailbox, e.marks⟩

def Server.places (s : Server) : List Place := s.entries.map Entry.place

namespace Operation

def mails (op : Operation) : List Nat := op.messages.map (·.mail)

/-- What the operation does to a message, when it is done to what it means. -/
def effect (op : Operation) (p : Place) : Option Place :=
  if p.mail ∈ op.mails then
    match op with
    | .flag _ _ f value => some { p with marks := p.marks.set f value }
    | .move _ target _ => some { p with mailbox := target }
    | .destroy _ _ => none
  else some p

end Operation

/-- What the operations do to a message, one after the other. -/
def perform (ops : List Operation) (p : Place) : Option Place :=
  ops.foldlM (fun p op ↦ op.effect p) p

namespace Account

/-- What an action does to a message. -/
def effect (s : Account) (action : Action) (p : Place) : Option Place :=
  match action with
  | .flag ids flag value =>
    if p.mail ∈ (s.locate ids).map (·.mail) then some { p with marks := p.marks.set flag value }
    else some p
  | .relocate moves =>
    match (s.leaving moves).find? (·.1.mail = p.mail) with
    | some m => some { p with mailbox := m.2 }
    | none => some p
  | .destroy ids => if p.mail ∈ (s.locate ids).map (·.mail) then none else some p

/-- The server removes no other message with those the operation takes away. -/
def Spares (s : Account) (op : Operation) : Prop :=
  let uids := (resolve s.rows op.messages).map (·.2)
  match op with
  | .flag _ _ _ _ => True
  | .move source _ _ => s.server.moves ∨ s.server.spares source uids
  | .destroy mailbox _ => s.server.spares mailbox uids

instance (s : Account) (op : Operation) : Decidable (s.Spares op) :=
  match op with
  | .flag _ _ _ _ => .isTrue trivial
  | .move _ _ _ => inferInstanceAs (Decidable (_ ∨ _))
  | .destroy _ _ => inferInstanceAs (Decidable (_ = true))

end Account

/-- One turn of the person or of the worker, which succeeds. -/
inductive Turn
  | act (action : Action)
  | attempt (told : Bool)

/-- An account, and the messages as they are when every action is done at once. -/
structure Twin where
  account : Account
  direct : List Place

/-- A move that is queued is about the message. -/
def movesQueued (queue : List Item) (id : Nat) : Bool :=
  queue.any fun item ↦ item.operation.target?.isSome && item.operation.concerns id

namespace Twin

def step (turn : Turn) (t : Twin) : Twin :=
  match turn with
  | .act action => ⟨t.account.act action, t.direct.filterMap (t.account.effect action)⟩
  | .attempt told => ⟨t.account.attempt (.done told), t.direct⟩

/-- The turn leaves every operation able to find its messages. -/
def Careful (turn : Turn) (t : Twin) : Prop :=
  let s := t.account
  match turn with
  | .act (.flag ids _ _) => ∀ row ∈ s.locate ids, row.remote.isMoved ∨
      row.home = some row.mailbox ∧ movesQueued s.queue row.id = false
  | .act (.relocate moves) => ∀ m ∈ s.leaving moves, m.1.remote.isMoved ∨
      m.1.home = some m.1.mailbox ∧ movesQueued s.queue m.1.id = false ∧
        waits s.queue m.1.id = false
  | .act (.destroy ids) => ∀ row ∈ s.locate ids, row.remote.isMoved = false ∧
      row.home = some row.mailbox ∧ movesQueued s.queue row.id = false ∧
        waits s.queue row.id = false
  | .attempt told => ∀ item ∈ s.queue.head?, s.Spares item.operation ∧
      (item.operation.target?.isSome → ∀ x ∈ item.operation.messages, waits s.queue.tail x.id →
        ∀ row ∈ s.rows, row.id = x.id →
          ∀ p ∈ resolve s.rows item.operation.messages, p.1.id = x.id →
            s.takes item.operation told row p.2)

instance (turn : Turn) (t : Twin) : Decidable (Careful turn t) :=
  match turn with
  | .act (.flag ids _ _) => inferInstanceAs (Decidable (∀ row ∈ t.account.locate ids, _ ∨ _))
  | .act (.relocate moves) => inferInstanceAs (Decidable (∀ m ∈ t.account.leaving moves, _ ∨ _))
  | .act (.destroy ids) => inferInstanceAs (Decidable (∀ row ∈ t.account.locate ids, _ ∧ _))
  | .attempt _ => inferInstanceAs (Decidable (∀ item ∈ t.account.queue.head?, _ ∧ (_ → _)))

end Twin

/-! ## The operations queued for one message -/

/-- Where a message is at some point of the queue.  Its UID is `known` until the first move. -/
structure Spot where
  mailbox : Nat
  known : Bool

namespace Operation

/-- Where the message is after the operation, if it is anywhere. -/
def carries (op : Operation) (id : Nat) (spot : Option Spot) : Option Spot :=
  if op.concerns id then
    match op with
    | .flag _ _ _ _ => spot
    | .move _ target _ => some ⟨target, false⟩
    | .destroy _ _ => none
  else spot

theorem concerns_iff {op : Operation} {id : Nat} :
    op.concerns id ↔ ∃ t ∈ op.messages, t.id = id := by
  rw [concerns, List.any_eq_true]
  exact exists_congr fun t ↦ and_congr_right fun _ ↦ decide_eq_true_iff

theorem waitsFor_iff {op : Operation} {id : Nat} :
    op.waitsFor id ↔ ∃ t ∈ op.messages, t.id = id ∧ t.remote.isMoved := by
  rw [waitsFor, List.any_eq_true]
  exact exists_congr fun t ↦ and_congr_right fun _ ↦ decide_eq_true_iff

end Operation

/-- Where the message is after all the operations. -/
abbrev spotAfter (id : Nat) (start : Option Spot) (ops : List Operation) : Option Spot :=
  Runs.after (fun op ↦ op.carries id) ops start

namespace Account

/-- The operation finds the message, which has the UID `uid` now and is at the spot by then. -/
structure Finds (s : Account) (uid : Nat) (spot : Spot) (mailbox : Nat) (t : Target) : Prop where
  mailbox : spot.mailbox = mailbox
  known : ∀ u, t.remote = .uid u → spot.known ∧ u = uid
  waits : t.remote.isMoved → ∃ row ∈ s.rows, row.id = t.id ∧
    (spot.known → row.remote.isMoved = false)

/-- Each of the operations finds the message. -/
def Follows (s : Account) (id uid : Nat) (start : Option Spot) (ops : List Operation) : Prop :=
  Runs.Along (fun op ↦ op.carries id) (fun op c ↦ ∀ t ∈ op.messages, t.id = id →
    ∃ spot, c = some spot ∧ s.Finds uid spot op.mailbox t) ops start

/-- The message is in this mailbox with this UID, the queue finds it, and its row stands where the
queue takes it. -/
structure Track (s : Account) (id mail mailbox uid : Nat) : Prop where
  there : mail ∈ s.server.named mailbox uid
  follows : s.Follows id uid (some ⟨mailbox, true⟩) s.operations
  ends : ∀ row ∈ s.rows, row.id = id → ∃ spot,
    spotAfter id (some ⟨mailbox, true⟩) s.operations = some spot ∧ row.mailbox = spot.mailbox ∧
      (spot.known → row.remote.isMoved = false)
  noted : ∀ row ∈ s.rows, row.id = id → ∀ u, row.remote = .uid u →
    u = uid ∧ row.home = some mailbox ∨
      row.home ≠ some row.mailbox ∧ ∀ op ∈ s.operations, op.concerns id = false

/-- The messages the store and the queue know, by id and by what they are. -/
def refs (s : Account) : List (Nat × Nat) :=
  s.rows.map (fun row ↦ (row.id, row.mail)) ++
    s.operations.flatMap fun op ↦ op.messages.map fun t ↦ (t.id, t.mail)

/-- An account whose queue finds every message it is about. -/
structure Kept (s : Account) : Prop where
  key : (s.rows.map (·.id)).Nodup
  distinct : s.server.Distinct
  refs : ∀ a ∈ s.refs, ∀ b ∈ s.refs, a.1 = b.1 ↔ a.2 = b.2
  apart : ∀ op ∈ s.operations, ∀ target, op.target? = some target → target ≠ op.mailbox
  track : ∀ a ∈ s.refs, ∃ mailbox uid, s.Track a.1 a.2 mailbox uid

variable {s t : Account} {id uid : Nat}

theorem mem_refs {a : Nat × Nat} : a ∈ s.refs ↔ (∃ row ∈ s.rows, (row.id, row.mail) = a) ∨
    ∃ op ∈ s.operations, ∃ m ∈ op.messages, (m.id, m.mail) = a := by
  rw [refs, List.mem_append, List.mem_map, List.mem_flatMap]
  refine or_congr_right (exists_congr fun op ↦ and_congr_right fun _ ↦ ?_)
  rw [List.mem_map]

theorem follows_append {c : Option Spot} {ops ops' : List Operation} :
    s.Follows id uid c (ops ++ ops') ↔
      s.Follows id uid c ops ∧ s.Follows id uid (spotAfter id c ops) ops' :=
  Runs.along_append _ ops ops' c

theorem follows_cons {c : Option Spot} {op : Operation} {ops : List Operation} :
    s.Follows id uid c (op :: ops) ↔
      (∀ m ∈ op.messages, m.id = id → ∃ spot, c = some spot ∧ s.Finds uid spot op.mailbox m) ∧
        s.Follows id uid (op.carries id c) ops := Iff.rfl

theorem spotAfter_append (c : Option Spot) (ops : List Operation) (op : Operation) :
    spotAfter id c (ops ++ [op]) = op.carries id (spotAfter id c ops) :=
  Runs.after_append ops [op] c

theorem Follows.imp {c : Option Spot} {ops : List Operation}
    (h : ∀ op ∈ ops, ∀ m ∈ op.messages, m.id = id → ∀ spot, s.Finds uid spot op.mailbox m →
      t.Finds uid spot op.mailbox m) (hs : s.Follows id uid c ops) : t.Follows id uid c ops :=
  Runs.Along.imp (fun op hop _ hc m hm hid ↦
    (hc m hm hid).imp fun spot hspot ↦ ⟨hspot.1, h op hop m hm hid spot hspot.2⟩) hs

/-- An operation that is not about the message leaves it where it is. -/
theorem carries_of_not_concerns {op : Operation} (h : op.concerns id = false) (c : Option Spot) :
    op.carries id c = c := by
  rw [Operation.carries.eq_def, h]
  rfl

/-- Without a move a message stays, or it goes for good. -/
theorem spotAfter_of_not_moved {c : Option Spot} {ops : List Operation}
    (h : ∀ op ∈ ops, (op.target?.isSome && op.concerns id) = false) :
    spotAfter id c ops = c ∨ spotAfter id c ops = none := by
  induction ops generalizing c with
  | nil => exact .inl rfl
  | cons op ops ih =>
    have hrest := fun c ↦ ih (c := c) fun op' hop' ↦ h op' (List.mem_cons_of_mem op hop')
    have hop := h op List.mem_cons_self
    change spotAfter id (op.carries id c) ops = c ∨ spotAfter id (op.carries id c) ops = none
    by_cases hc : op.concerns id
    · rw [Operation.carries.eq_def, if_pos hc]
      rcases op with ⟨mailbox, messages, flag, value⟩ | ⟨source, target, messages⟩ |
        ⟨mailbox, messages⟩
      · exact hrest c
      · rw [hc] at hop
        cases hop
      · exact .inr ((hrest none).elim (fun hn ↦ hn) fun hn ↦ hn)
    · rw [carries_of_not_concerns (Bool.eq_false_iff.2 hc)]
      exact hrest c

theorem movesQueued_iff : movesQueued s.queue id = false ↔
    ∀ op ∈ s.operations, (op.target?.isSome && op.concerns id) = false := by
  rw [movesQueued, operations, List.any_eq_false, List.forall_mem_map]
  exact forall₂_congr fun item _ ↦ Bool.eq_false_iff.symm

theorem waits_iff : waits s.queue id = false ↔ ∀ op ∈ s.operations, op.waitsFor id = false := by
  rw [waits, operations, List.any_eq_false, List.forall_mem_map]
  exact forall₂_congr fun item _ ↦ Bool.eq_false_iff.symm

/-- An operation queued on the row now finds the message: its row waits for a UID, or has the right
one and no move before it. -/
def Ready (s : Account) (row : Message) : Prop :=
  row.remote.isMoved ∨ row.home = some row.mailbox ∧ movesQueued s.queue row.id = false

/-- A row that is ready is found. -/
theorem Track.finds {row : Message} {mail mailbox : Nat} (ht : s.Track row.id mail mailbox uid)
    (hrow : row ∈ s.rows) (hready : s.Ready row) :
    ∃ spot, spotAfter row.id (some ⟨mailbox, true⟩) s.operations = some spot ∧
      s.Finds uid spot row.mailbox row.toTarget := by
  obtain ⟨spot, hspot, hmailbox, hsettled⟩ := ht.ends row hrow rfl
  refine ⟨spot, hspot, hmailbox.symm, fun u hu ↦ ?_, fun _ ↦ ⟨row, hrow, rfl, hsettled⟩⟩
  have hu : row.remote = .uid u := hu
  rcases hready with hmoved | ⟨hhome, hstays⟩
  · rw [hu] at hmoved
    cases hmoved
  constructor
  · rcases spotAfter_of_not_moved (movesQueued_iff.1 hstays) with hc | hc
    · rw [hc] at hspot
      rw [← Option.some.inj hspot]
    · rw [hc] at hspot
      cases hspot
  · exact ((ht.noted row hrow rfl u hu).resolve_right fun hstale ↦ hstale.1 hhome).1

/-- Forget what is deleted from one mailbox, and queue the deletion. -/
def destroyGroup (s : Account) (mailbox : Nat) (found : List Message) : Account :=
  enqueue { s with rows := forget s.rows (found.map (·.id)) }
    (.destroy mailbox (found.map (·.toTarget)))

/-- The row is at home, and nothing that is queued moves the message or waits for it. -/
def Settled (s : Account) (row : Message) : Prop :=
  row.home = some row.mailbox ∧ movesQueued s.queue row.id = false ∧ waits s.queue row.id = false

theorem not_waitsFor_of_settled {row : Message} (hrow : s.Settled row) {op op' : Operation}
    (hop : ∀ x ∈ op.messages, x.id = row.id → x.remote = row.remote)
    (hop' : op' ∈ s.operations ++ [op]) (hw : op'.waitsFor row.id) : row.remote.isMoved := by
  rcases List.mem_append.1 hop' with hop' | hop'
  · rw [waits_iff.1 hrow.2.2 op' hop'] at hw
    cases hw
  · rw [List.mem_singleton.1 hop'] at hw
    obtain ⟨x, hx, hid, hmoved⟩ := Operation.waitsFor_iff.1 hw
    exact hop x hx hid ▸ hmoved

theorem Ready.enqueue {row : Message} (h : s.Ready row) {op : Operation}
    (hop : (op.target?.isSome && op.concerns row.id) = false) : (s.enqueue op).Ready row := by
  refine Or.imp_right (fun hhome ↦ ⟨hhome.1, ?_⟩) h
  change (s.queue ++ [(⟨op, 0⟩ : Item)]).any _ = false
  rw [List.any_append, List.any_cons, List.any_nil, hop, Bool.or_false, Bool.or_false]
  exact hhome.2

theorem Settled.enqueue {row : Message} (h : s.Settled row) (op : Operation)
    (hop : op.concerns row.id = false) : (s.enqueue op).Settled row := by
  have hwaits : op.waitsFor row.id = false := by
    rw [Bool.eq_false_iff] at hop ⊢
    intro hw
    obtain ⟨x, hx, hid, -⟩ := Operation.waitsFor_iff.1 hw
    exact hop (Operation.concerns_iff.2 ⟨x, hx, hid⟩)
  refine ⟨h.1, ?_, ?_⟩
  · change (s.queue ++ [(⟨op, 0⟩ : Item)]).any _ = false
    rw [List.any_append, List.any_cons, List.any_nil, hop, Bool.and_false, Bool.or_false,
      Bool.or_false]
    exact h.2.1
  · change (s.queue ++ [(⟨op, 0⟩ : Item)]).any _ = false
    rw [List.any_append, List.any_cons, List.any_nil, hwaits, Bool.or_false, Bool.or_false]
    exact h.2.2

/-- An operation on rows is about these rows. -/
theorem concerns_toTarget {γ : Type} {found : List γ} {row : γ → Message} {op : Operation}
    (hop : op.messages = found.map fun a ↦ (row a).toTarget) (id : Nat) :
    op.concerns id ↔ id ∈ found.map fun a ↦ (row a).id := by
  rw [Operation.concerns_iff, hop, List.mem_map]
  constructor
  · rintro ⟨x, hx, rfl⟩
    obtain ⟨a, ha, rfl⟩ := List.mem_map.1 hx
    exact ⟨a, ha, rfl⟩
  · rintro ⟨a, ha, rfl⟩
    exact ⟨(row a).toTarget, List.mem_map_of_mem ha, rfl⟩

/-- The deletion, one mailbox after the other. -/
theorem destroy_eq_foldl (found : List Message) : s.destroy found =
    (grouped (· ≤ ·) (·.mailbox) found).foldl (fun s g ↦ s.destroyGroup g.1 g.2) s := by
  have hrows : forget s.rows (found.map (·.id)) =
      forget s.rows ((grouped (· ≤ ·) (·.mailbox) found).flatMap fun g ↦ g.2.map (·.id)) := by
    refine List.filter_congr fun row _ ↦ decide_eq_decide.2 (not_congr ⟨fun hid ↦ ?_, fun hid ↦ ?_⟩)
    · obtain ⟨row', hrow', hid⟩ := List.mem_map.1 hid
      obtain ⟨g, hg, hmem⟩ : ∃ g ∈ grouped (· ≤ ·) (·.mailbox) found, row' ∈ g.2 :=
        exists_mem_grouped hrow'
      exact List.mem_flatMap.2 ⟨g, hg, List.mem_map.2 ⟨row', hmem, hid⟩⟩
    · obtain ⟨g, hg, hid⟩ := List.mem_flatMap.1 hid
      obtain ⟨row', hrow', hid⟩ := List.mem_map.1 hid
      exact List.mem_map.2 ⟨row', (mem_of_mem_grouped hg hrow').1, hid⟩
  rw [Account.destroy]
  simp only [hrows]
  clear hrows
  generalize grouped (· ≤ ·) (·.mailbox) found = groups
  induction groups generalizing s with
  | nil =>
    rw [List.foldl_nil, List.foldl_nil, List.flatMap_nil]
    simp [forget]
  | cons g groups ih =>
    rw [List.foldl_cons, List.foldl_cons, ← ih, List.flatMap_cons]
    congr 1
    simp only [destroyGroup, enqueue, forget, List.filter_filter, List.mem_append, not_or,
      Bool.decide_and, Bool.and_comm]

/-- What queueing an operation does to an account: the operation is about rows that are ready, rows
it moves wait for a UID from now on, and a row that an operation waits for stays. -/
structure Offered (t : Account) (op : Operation) (s : Account) : Prop where
  operations : t.operations = s.operations ++ [op]
  server : t.server = s.server
  key : (t.rows.map (·.id)).Sublist (s.rows.map (·.id))
  apart : ∀ target, op.target? = some target → target ≠ op.mailbox
  ready : ∀ x ∈ op.messages, ∃ row ∈ s.rows, row.toTarget = x ∧ row.mailbox = op.mailbox ∧
    s.Ready row
  rows : ∀ row ∈ t.rows, ∃ row' ∈ s.rows, row'.id = row.id ∧ row'.mail = row.mail ∧
    (row' = row ∧ (∀ c, op.carries row.id c = c) ∨
      row.remote.isMoved ∧ ∀ c, op.carries row.id c = some ⟨row.mailbox, false⟩)
  kept : ∀ row ∈ s.rows, (∃ op' ∈ t.operations, op'.waitsFor row.id) → ∃ row' ∈ t.rows,
    row'.id = row.id ∧ (row' = row ∨ row.remote.isMoved)

namespace Kept

theorem row_eq (h : s.Kept) {row row' : Message} (hrow : row ∈ s.rows) (hrow' : row' ∈ s.rows)
    (hid : row.id = row'.id) : row = row' := List.inj_on_of_nodup_map h.key hrow hrow' hid

theorem refs_subset (h : s.Kept) (ht : t.refs ⊆ s.refs) :
    ∀ a ∈ t.refs, ∀ b ∈ t.refs, a.1 = b.1 ↔ a.2 = b.2 :=
  fun a ha b hb ↦ h.refs a (ht ha) b (ht hb)

/-! ### Actions -/

/-- **Queueing an operation** leaves every operation able to find its messages. -/
theorem offered (h : s.Kept) {op : Operation} (ht : t.Offered op s) : t.Kept := by
  have hrefs : t.refs ⊆ s.refs := by
    intro a ha
    rcases mem_refs.1 ha with ⟨row, hrow, rfl⟩ | ⟨op', hop', m, hm, rfl⟩
    · obtain ⟨row', hrow', hid, hmail, -⟩ := ht.rows row hrow
      exact mem_refs.2 (.inl ⟨row', hrow', Prod.ext hid hmail⟩)
    · rw [ht.operations, List.mem_append, List.mem_singleton] at hop'
      rcases hop' with hop' | rfl
      · exact mem_refs.2 (.inr ⟨op', hop', m, hm, rfl⟩)
      · obtain ⟨row, hrow, rfl, -⟩ := ht.ready m hm
        exact mem_refs.2 (.inl ⟨row, hrow, rfl⟩)
  have hfinds : ∀ op' ∈ t.operations, ∀ m ∈ op'.messages, ∀ uid spot,
      s.Finds uid spot op'.mailbox m → t.Finds uid spot op'.mailbox m := by
    refine fun op' hop' m hm uid spot hf ↦ ⟨hf.mailbox, hf.known, fun hmoved ↦ ?_⟩
    obtain ⟨row, hrow, hid, hknown⟩ := hf.waits hmoved
    obtain ⟨row', hrow', hid', hsame⟩ := ht.kept row hrow
      ⟨op', hop', Operation.waitsFor_iff.2 ⟨m, hm, hid.symm, hmoved⟩⟩
    refine ⟨row', hrow', hid'.trans hid, fun hspot ↦ ?_⟩
    rcases hsame with rfl | hrowmoved
    · exact hknown hspot
    · rw [hknown hspot] at hrowmoved
      cases hrowmoved
  refine ⟨ht.key.nodup h.key, ht.server ▸ h.distinct, h.refs_subset hrefs, ?_, fun a ha ↦ ?_⟩
  · intro op' hop' target htarget
    rw [ht.operations, List.mem_append, List.mem_singleton] at hop'
    rcases hop' with hop' | rfl
    · exact h.apart op' hop' target htarget
    · exact ht.apart target htarget
  · obtain ⟨m, uid, htrack⟩ := h.track a (hrefs ha)
    refine ⟨m, uid, ht.server ▸ htrack.there, ?_, ?_, ?_⟩
    · have hold := htrack.follows.imp (t := t) fun op' hop' x hx _ spot ↦
        hfinds op' (by rw [ht.operations]; exact List.mem_append_left _ hop') x hx uid spot
      rw [ht.operations, follows_append]
      refine ⟨hold, fun x hx hid ↦ ?_, trivial⟩
      obtain ⟨row, hrow, rfl, hmailbox, hready⟩ := ht.ready x hx
      have hid : row.id = a.1 := hid
      obtain ⟨spot, hspot, hf⟩ := (hid ▸ htrack : s.Track row.id _ _ _).finds hrow hready
      refine ⟨spot, hid ▸ hspot, hfinds op ?_ _ hx uid spot (hmailbox ▸ hf)⟩
      rw [ht.operations]
      exact List.mem_append_right _ List.mem_cons_self
    · intro row hrow hid
      obtain ⟨row', hrow', hid', -, hsame⟩ := ht.rows row hrow
      obtain ⟨spot, hspot, hmailbox, hknown⟩ := htrack.ends row' hrow' (hid'.trans hid)
      rw [ht.operations, spotAfter_append, hspot, ← hid]
      rcases hsame with ⟨rfl, hc⟩ | ⟨-, hc⟩
      · exact ⟨spot, hc _, hmailbox, hknown⟩
      · exact ⟨⟨row.mailbox, false⟩, hc _, rfl, nofun⟩
    · intro row hrow hid u hu
      obtain ⟨row', hrow', hid', -, ⟨rfl, -⟩ | ⟨hmoved, -⟩⟩ := ht.rows row hrow
      · refine (htrack.noted row' hrow' hid u hu).imp_right fun hstale ↦ ⟨hstale.1, fun op' hop' ↦ ?_⟩
        rw [ht.operations, List.mem_append, List.mem_singleton] at hop'
        rcases hop' with hop' | rfl
        · exact hstale.2 op' hop'
        · rw [Bool.eq_false_iff]
          intro hc
          obtain ⟨x, hx, hxid⟩ := Operation.concerns_iff.1 hc
          obtain ⟨row, hrow, rfl, -, hready⟩ := ht.ready x hx
          obtain rfl := h.row_eq hrow hrow' (hxid.trans hid.symm)
          rcases hready with hmoved | hhome
          · rw [hu] at hmoved
            cases hmoved
          · exact hstale.1 hhome.1
      · rw [hu] at hmoved
        cases hmoved

/-- Flags are changed in messages as their rows are now. -/
theorem flagGroup (h : s.Kept) {mailbox : Nat} {found : List Message} (flag : Flag) (value : Bool)
    (hfound : ∀ row ∈ found, row ∈ s.rows ∧ row.mailbox = mailbox ∧ s.Ready row) :
    (s.enqueue (.flag mailbox (found.map (·.toTarget)) flag value)).Kept := by
  refine h.offered ⟨operations_enqueue _, rfl, List.Sublist.refl _, nofun, fun x hx ↦ ?_,
    fun row hrow ↦ ⟨row, hrow, rfl, rfl, .inl ⟨rfl, fun c ↦ ?_⟩⟩,
    fun row hrow _ ↦ ⟨row, hrow, rfl, .inl rfl⟩⟩
  · obtain ⟨row, hrow, rfl⟩ := List.mem_map.1 hx
    obtain ⟨hmem, hmailbox, hready⟩ := hfound row hrow
    exact ⟨row, hmem, rfl, hmailbox, hready⟩
  · rw [Operation.carries.eq_def]
    exact ite_self c

/-- A move of messages as their rows are now. -/
theorem moveGroup (h : s.Kept) {source target : Nat} {found : List (Message × Nat)}
    (hfound : ∀ m ∈ found, m.1 ∈ s.rows ∧ m.1.mailbox = source ∧
      (m.1.remote.isMoved ∨ s.Settled m.1)) (hne : target ≠ source) :
    (s.moveGroup source target found).Kept := by
  set op : Operation := .move source target (found.map (·.1.toTarget)) with hop
  have hmem : ∀ {row}, row ∈ s.rows → row.id ∈ found.map (·.1.id) → ∃ m ∈ found, m.1 = row := by
    intro row hrow hid
    obtain ⟨m, hm, hmid⟩ := List.mem_map.1 hid
    exact ⟨m, hm, h.row_eq (hfound m hm).1 hrow hmid⟩
  have hconcerns : ∀ id, op.concerns id ↔ id ∈ found.map (·.1.id) := concerns_toTarget rfl
  refine h.offered ⟨operations_enqueue _, rfl, (relocate_key _ _).symm ▸ List.Sublist.refl _,
    fun _ ht ↦ Option.some.inj ht ▸ hne, fun x hx ↦ ?_, fun row hrow ↦ ?_, fun row hrow hw ↦ ?_⟩
  · obtain ⟨m, hm, rfl⟩ := List.mem_map.1 hx
    obtain ⟨hrow, hmailbox, hfree⟩ := hfound m hm
    exact ⟨m.1, hrow, rfl, hmailbox, hfree.imp_right fun hs ↦ ⟨hs.1, hs.2.1⟩⟩
  · obtain ⟨row', hrow', rfl⟩ := mem_relocate.1 hrow
    refine ⟨row', hrow', ?_⟩
    by_cases hr : row'.id ∈ found.map (·.1.id) ∧ row'.mailbox ≠ target
    · rw [if_pos hr]
      refine ⟨rfl, rfl, .inr ⟨rfl, fun c ↦ ?_⟩⟩
      rw [Operation.carries.eq_def, if_pos ((hconcerns _).2 hr.1)]
    · rw [if_neg hr]
      refine ⟨rfl, rfl, .inl ⟨rfl, carries_of_not_concerns (Bool.eq_false_iff.2 fun hc ↦ hr ?_)⟩⟩
      have hid := (hconcerns _).1 hc
      obtain ⟨m, hm, rfl⟩ := hmem hrow' hid
      exact ⟨hid, (hfound m hm).2.1 ▸ hne.symm⟩
  · by_cases hid : row.id ∈ found.map (·.1.id)
    · obtain ⟨m, hm, rfl⟩ := hmem hrow hid
      refine ⟨{ m.1 with mailbox := target, remote := .moved m.1.id, home := none },
        mem_relocate.2 ⟨m.1, hrow, (if_pos ⟨hid, (hfound m hm).2.1 ▸ hne.symm⟩).symm⟩, rfl, .inr ?_⟩
      rcases (hfound m hm).2.2 with hmoved | hsettled
      · exact hmoved
      · obtain ⟨op', hop', hw⟩ := hw
        refine not_waitsFor_of_settled hsettled (fun x hx hxid ↦ ?_)
          ((operations_enqueue _) ▸ hop' : op' ∈ s.operations ++ [op]) hw
        obtain ⟨m', hm', rfl⟩ := List.mem_map.1 hx
        rw [h.row_eq (hfound m' hm').1 hrow hxid]
        rfl
    · exact ⟨row, mem_relocate_of_notMem hrow hid, rfl, .inl rfl⟩

/-- Messages are deleted as their rows are now. -/
theorem destroyGroup (h : s.Kept) {mailbox : Nat} {found : List Message}
    (hfound : ∀ row ∈ found, row ∈ s.rows ∧ row.mailbox = mailbox ∧
      row.remote.isMoved = false ∧ s.Settled row) : (s.destroyGroup mailbox found).Kept := by
  set op : Operation := .destroy mailbox (found.map (·.toTarget)) with hop
  have hconcerns : ∀ id, op.concerns id ↔ id ∈ found.map (·.id) := concerns_toTarget rfl
  refine h.offered ⟨operations_enqueue _, rfl, List.filter_sublist.map _, nofun, fun x hx ↦ ?_,
    fun row hrow ↦ ?_, fun row hrow hw ↦ ?_⟩
  · obtain ⟨row, hrow, rfl⟩ := List.mem_map.1 hx
    obtain ⟨hmem, hmailbox, -, hsettled⟩ := hfound row hrow
    exact ⟨row, hmem, rfl, hmailbox, .inr ⟨hsettled.1, hsettled.2.1⟩⟩
  · obtain ⟨hrow, hid⟩ := List.mem_filter.1 hrow
    refine ⟨row, hrow, rfl, rfl, .inl ⟨rfl, carries_of_not_concerns (Bool.eq_false_iff.2 fun hc ↦ ?_)⟩⟩
    exact of_decide_eq_true hid ((hconcerns _).1 hc)
  · refine ⟨row, List.mem_filter.2 ⟨hrow, decide_eq_true fun hid ↦ ?_⟩, rfl, .inl rfl⟩
    obtain ⟨row', hrow', hid'⟩ := List.mem_map.1 hid
    obtain ⟨hmem, -, hmoved, hsettled⟩ := hfound row' hrow'
    obtain rfl := h.row_eq hmem hrow hid'
    obtain ⟨op', hop', hw⟩ := hw
    have := not_waitsFor_of_settled hsettled (fun x hx hxid ↦ ?_)
      ((operations_enqueue _) ▸ hop' : op' ∈ s.operations ++ [op]) hw
    · rw [hmoved] at this
      cases this
    · obtain ⟨row, hrow, rfl⟩ := List.mem_map.1 hx
      rw [h.row_eq (hfound row hrow).1 hmem hxid]
      rfl

theorem flag (h : s.Kept) {found : List Message} (hfound : found.Sublist s.rows)
    (hready : ∀ row ∈ found, s.Ready row) (flag : Flag) (value : Bool) :
    (s.flag found flag value).Kept := by
  refine foldl_grouped (κ := Nat) (I := Kept) (i := fun row : Message ↦ row.id)
    (C := fun s row ↦ row ∈ s.rows ∧ s.Ready row) (fun s g hs _ hg ↦ ?_)
    (fun s g row hrow _ ↦ ?_) h ((hfound.map _).nodup h.key)
    fun row hrow ↦ ⟨hfound.subset hrow, hready row hrow⟩
  · refine hs.flagGroup flag value fun row hrow ↦ ?_
    obtain ⟨hk, hmem, hready⟩ := hg row hrow
    exact ⟨hmem, hk, hready⟩
  · exact ⟨hrow.1, Ready.enqueue hrow.2 rfl⟩

theorem relocate (h : s.Kept) {moves : List (Message × Nat)}
    (hmoves : (moves.map (·.1)).Sublist s.rows)
    (hready : ∀ m ∈ moves, m.2 ≠ m.1.mailbox ∧ (m.1.remote.isMoved ∨ s.Settled m.1)) :
    (s.relocate moves).Kept := by
  have hkey := (hmoves.map (·.id)).nodup h.key
  rw [List.map_map] at hkey
  refine foldl_grouped (I := Kept) (i := fun m : Message × Nat ↦ m.1.id)
    (C := fun s m ↦ m.1 ∈ s.rows ∧ m.2 ≠ m.1.mailbox ∧ (m.1.remote.isMoved ∨ s.Settled m.1))
    (fun s g hs hne hg ↦ ?_) (fun s g m hm hother ↦ ?_) h hkey
    fun m hm ↦ ⟨hmoves.subset (List.mem_map_of_mem hm), hready m hm⟩
  · refine hs.moveGroup (fun m hm ↦ ?_) ?_
    · obtain ⟨hk, hrow, -, hfree⟩ := hg m hm
      exact ⟨hrow, congrArg Prod.fst hk, hfree⟩
    · obtain ⟨m, hm⟩ := List.exists_mem_of_ne_nil g.2 hne
      obtain ⟨hk, -, hleaves, -⟩ := hg m hm
      rw [← hk]
      exact hleaves
  · have hid : m.1.id ∉ g.2.map (·.1.id) := by
      rintro hid
      obtain ⟨m', hm', heq⟩ := List.mem_map.1 hid
      exact (hother m' hm').2 heq
    refine ⟨mem_relocate_of_notMem hm.1 hid, hm.2.1, hm.2.2.imp_right fun hs ↦ ?_⟩
    refine Settled.enqueue hs (.move g.1.1 g.1.2 (g.2.map (·.1.toTarget))) ?_
    exact Bool.eq_false_iff.2 fun hc ↦ hid ((concerns_toTarget rfl _).1 hc)

theorem destroy (h : s.Kept) {found : List Message} (hfound : found.Sublist s.rows)
    (hready : ∀ row ∈ found, row.remote.isMoved = false ∧ s.Settled row) :
    (s.destroy found).Kept := by
  rw [destroy_eq_foldl]
  refine foldl_grouped (κ := Nat) (I := Kept) (i := fun row : Message ↦ row.id)
    (C := fun s row ↦ row ∈ s.rows ∧ row.remote.isMoved = false ∧ s.Settled row)
    (fun s g hs _ hg ↦ ?_) (fun s g row hrow hother ↦ ?_) h ((hfound.map _).nodup h.key)
    fun row hrow ↦ ⟨hfound.subset hrow, hready row hrow⟩
  · refine hs.destroyGroup fun row hrow ↦ ?_
    obtain ⟨hk, hmem, hready⟩ := hg row hrow
    exact ⟨hmem, hk, hready⟩
  · have hid : row.id ∉ g.2.map (·.id) := by
      rintro hid
      obtain ⟨row', hrow', heq⟩ := List.mem_map.1 hid
      exact (hother row' hrow').2 heq
    refine ⟨List.mem_filter.2 ⟨hrow.1, decide_eq_true hid⟩, hrow.2.1, ?_⟩
    refine Settled.enqueue hrow.2.2 (.destroy g.1 (g.2.map (·.toTarget))) ?_
    exact Bool.eq_false_iff.2 fun hc ↦ hid ((concerns_toTarget rfl _).1 hc)

theorem act (h : s.Kept) {action : Action} {direct : List Place}
    (hc : Twin.Careful (.act action) ⟨s, direct⟩) : (s.act action).Kept := by
  rcases action with ⟨ids, flag, value⟩ | moves | ids
  · exact h.flag List.filter_sublist hc flag value
  · exact h.relocate (s.leaving_sublist moves) fun m hm ↦ ⟨s.leaving_ne hm, hc m hm⟩
  · exact h.destroy List.filter_sublist fun row hrow ↦ hc row hrow

end Kept

/-! ### What the operations of an action do -/

theorem foldl_operations {γ : Type} {step : Account → γ → Account} {f : γ → Operation}
    (h : ∀ s g, (step s g).operations = s.operations ++ [f g]) (l : List γ) :
    (l.foldl step s).operations = s.operations ++ l.map f := by
  induction l generalizing s with
  | nil => exact (List.append_nil _).symm
  | cons g l ih => rw [List.foldl_cons, ih, h, List.append_assoc]; rfl

theorem perform_append (ops ops' : List Operation) (p : Place) :
    perform (ops ++ ops') p = (perform ops p).bind (perform ops') :=
  List.foldlM_append

theorem effect_of_notMem {op : Operation} {p : Place} (h : p.mail ∉ op.mails) :
    op.effect p = some p := by
  rw [Operation.effect.eq_def, if_neg h]

theorem effect_mail {op : Operation} {p q : Place} (h : op.effect p = some q) : q.mail = p.mail := by
  rw [Operation.effect.eq_def] at h
  by_cases hp : p.mail ∈ op.mails
  · rw [if_pos hp] at h
    rcases op with ⟨_, _, _, _⟩ | ⟨_, _, _⟩ | ⟨_, _⟩
    · exact Option.some.inj h ▸ rfl
    · exact Option.some.inj h ▸ rfl
    · cases h
  · rw [if_neg hp] at h
    exact Option.some.inj h ▸ rfl

theorem perform_of_notMem {ops : List Operation} {p : Place} (h : ∀ op ∈ ops, p.mail ∉ op.mails) :
    perform ops p = some p := by
  induction ops with
  | nil => rfl
  | cons op ops ih =>
    rw [perform, List.foldlM_cons, effect_of_notMem (h op List.mem_cons_self)]
    exact ih fun op' hop' ↦ h op' (List.mem_cons_of_mem op hop')

/-- Of operations on different messages one does something to a message. -/
theorem perform_of_mem {ops : List Operation} {p : Place} {op : Operation}
    (hdisjoint : ops.Pairwise fun op op' ↦ ∀ m ∈ op.mails, m ∉ op'.mails) (hop : op ∈ ops)
    (hp : p.mail ∈ op.mails) : perform ops p = op.effect p := by
  induction ops with
  | nil => cases hop
  | cons first ops ih =>
    obtain ⟨hfirst, hrest⟩ := List.pairwise_cons.1 hdisjoint
    rw [perform, List.foldlM_cons]
    rcases List.mem_cons.1 hop with rfl | hop
    · rcases he : op.effect p with - | q
      · rfl
      · refine perform_of_notMem fun op' hop' ↦ ?_
        rw [effect_mail he]
        exact hfirst op' hop' p.mail hp
    · rw [effect_of_notMem fun hm ↦ hfirst op hop p.mail hm hp]
      exact ih hrest hop

/-- Of the operations for the groups the one for its group is what is done to a message. -/
theorem perform_groups {α κ : Type} [DecidableEq κ] {le : κ → κ → Bool} {key : α → κ}
    {found : List α} {p : Place} {r : Option Place} (row : α → Message)
    (f : κ × List α → Operation) (hf : ∀ g, (f g).messages = g.2.map fun a ↦ (row a).toTarget)
    (hmails : (found.map fun a ↦ (row a).mail).Nodup)
    (hmem : ∀ g, ∀ a ∈ found, (row a).mail = p.mail → key a = g.1 → p.mail ∈ (f g).mails →
      (f g).effect p = r)
    (hnone : (∀ a ∈ found, (row a).mail ≠ p.mail) → r = some p) :
    perform ((grouped le key found).map f) p = r := by
  have hf' : ∀ g, (f g).mails = g.2.map fun a ↦ (row a).mail := fun g ↦ by
    rw [Operation.mails, hf, List.map_map]
    rfl
  by_cases hp : ∃ a ∈ found, (row a).mail = p.mail
  · obtain ⟨a, ha, hmail⟩ := hp
    obtain ⟨g, hg, hag⟩ : ∃ g ∈ grouped le key found, a ∈ g.2 := exists_mem_grouped ha
    have hpg : p.mail ∈ (f g).mails := by
      rw [hf', ← hmail]
      exact List.mem_map_of_mem hag
    rw [← hmem g a ha hmail (mem_of_mem_grouped hg hag).2 hpg]
    refine perform_of_mem (List.pairwise_map.2 ?_) (List.mem_map_of_mem hg) hpg
    refine (grouped_disjoint hmails).imp fun {g g'} hgg m hm hm' ↦ ?_
    rw [hf'] at hm hm'
    obtain ⟨b, hb, rfl⟩ := List.mem_map.1 hm
    obtain ⟨b', hb', heq⟩ := List.mem_map.1 hm'
    exact hgg b hb b' hb' heq.symm
  · rw [hnone fun a ha hmail ↦ hp ⟨a, ha, hmail⟩]
    refine perform_of_notMem fun op hop hm ↦ ?_
    obtain ⟨g, hg, rfl⟩ := List.mem_map.1 hop
    rw [hf'] at hm
    obtain ⟨a, ha, heq⟩ := List.mem_map.1 hm
    exact hp ⟨a, (mem_of_mem_grouped hg ha).1, heq⟩

theorem Kept.mails (h : s.Kept) : (s.rows.map (·.mail)).Nodup := by
  refine List.Nodup.map_on (fun row hrow row' hrow' heq ↦ ?_) (List.Nodup.of_map _ h.key)
  refine h.row_eq hrow hrow' ?_
  exact (h.refs _ (mem_refs.2 (.inl ⟨row, hrow, rfl⟩)) _
    (mem_refs.2 (.inl ⟨row', hrow', rfl⟩))).2 heq

/-- The operations an action puts in the queue. -/
def queued (s : Account) : Action → List Operation
  | .flag ids flag value => (grouped (· ≤ ·) (·.mailbox) (s.locate ids)).map fun g ↦
      .flag g.1 (g.2.map (·.toTarget)) flag value
  | .relocate moves => (grouped pairLe (fun m ↦ (m.1.mailbox, m.2)) (s.leaving moves)).map fun g ↦
      .move g.1.1 g.1.2 (g.2.map (·.1.toTarget))
  | .destroy ids => (grouped (· ≤ ·) (·.mailbox) (s.locate ids)).map fun g ↦
      .destroy g.1 (g.2.map (·.toTarget))

theorem act_operations (action : Action) :
    (s.act action).operations = s.operations ++ s.queued action := by
  rcases action with ⟨ids, flag, value⟩ | moves | ids
  · exact foldl_operations (fun _ g ↦
      operations_enqueue (.flag g.1 (g.2.map (·.toTarget)) flag value)) _
  · exact foldl_operations (fun _ g ↦
      operations_enqueue (.move g.1.1 g.1.2 (g.2.map (·.1.toTarget)))) _
  · exact foldl_operations (fun _ g ↦
      operations_enqueue (.destroy g.1 (g.2.map (·.toTarget)))) _

/-- **An action is its operations**, one after the other. -/
theorem perform_queued (h : s.Kept) (action : Action) (p : Place) :
    perform (s.queued action) p = s.effect action p := by
  have hmails : ∀ {found : List Message}, found.Sublist s.rows → (found.map (·.mail)).Nodup :=
    fun hfound ↦ (hfound.map _).nodup h.mails
  rcases action with ⟨ids, flag, value⟩ | moves | ids
  · refine perform_groups (fun row ↦ row) _ (fun _ ↦ rfl) (hmails List.filter_sublist)
      (fun g row hrow hmail _ hg ↦ ?_) fun hnone ↦ ?_
    · rw [effect, if_pos (List.mem_map.2 ⟨row, hrow, hmail⟩), Operation.effect.eq_def, if_pos hg]
    · refine if_neg fun hp ↦ ?_
      obtain ⟨row, hrow, hmail⟩ := List.mem_map.1 hp
      exact hnone row hrow hmail
  · have hnodup : ((s.leaving moves).map (·.1.mail)).Nodup := by
      have := hmails (s.leaving_sublist moves)
      rwa [List.map_map] at this
    refine perform_groups (fun m ↦ m.1) _ (fun _ ↦ rfl) hnodup
      (fun g m hm hmail hkey hg ↦ ?_) fun hnone ↦ ?_
    · rw [effect, Operation.effect.eq_def, if_pos hg]
      rcases hfind : (s.leaving moves).find? (·.1.mail = p.mail) with - | m'
      · exact absurd (decide_eq_true hmail) (List.find?_eq_none.1 hfind m hm)
      · have hmail' : m'.1.mail = p.mail := by simpa using List.find?_some hfind
        obtain rfl := List.inj_on_of_nodup_map hnodup (List.mem_of_find?_eq_some hfind) hm
          (hmail'.trans hmail.symm)
        simp only [hfind, ← hkey]
    · rw [effect, List.find?_eq_none.2 fun m hm hmail ↦ hnone m hm (of_decide_eq_true hmail)]
  · refine perform_groups (fun row ↦ row) _ (fun _ ↦ rfl) (hmails List.filter_sublist)
      (fun g row hrow hmail _ hg ↦ ?_) fun hnone ↦ ?_
    · rw [effect, if_pos (List.mem_map.2 ⟨row, hrow, hmail⟩), Operation.effect.eq_def, if_pos hg]
    · refine if_neg fun hp ↦ ?_
      obtain ⟨row, hrow, hmail⟩ := List.mem_map.1 hp
      exact hnone row hrow hmail

/-! ### What an attempt does -/

namespace Kept

variable {op : Operation} {ops : List Operation}

/-- The first operation of the queue finds each of its messages. -/
theorem found (h : s.Kept) (hs : s.operations = op :: ops) {x : Target} (hx : x ∈ op.messages) :
    ∃ uid, s.Track x.id x.mail op.mailbox uid ∧ (x, uid) ∈ resolve s.rows op.messages ∧
      ∀ uid', (x, uid') ∈ resolve s.rows op.messages → uid' = uid := by
  have hmem : op ∈ s.operations := by rw [hs]; exact List.mem_cons_self
  obtain ⟨mailbox, uid, ht⟩ := h.track (x.id, x.mail) (mem_refs.2 (.inr ⟨op, hmem, x, hx, rfl⟩))
  have hfollows := ht.follows
  rw [hs] at hfollows
  obtain ⟨spot, hspot, hf⟩ := (follows_cons.1 hfollows).1 x hx rfl
  obtain rfl := Option.some.inj hspot
  obtain rfl : mailbox = op.mailbox := hf.mailbox
  have hnoted : ∀ row ∈ s.rows, row.id = x.id → ∀ u, row.remote = .uid u → u = uid := by
    intro row hrow hid u hu
    refine ((ht.noted row hrow hid u hu).resolve_right fun hstale ↦ ?_).1
    have := hstale.2 op hmem
    rw [Bool.eq_false_iff] at this
    exact this (Operation.concerns_iff.2 ⟨x, hx, rfl⟩)
  refine ⟨uid, ht, ?_, fun uid' hx' ↦ ?_⟩
  · rw [resolve, List.mem_filterMap]
    refine ⟨x, hx, ?_⟩
    rcases hr : x.remote with u | k
    · obtain rfl := (hf.known u hr).2
      rfl
    · obtain ⟨row, hrow, hid, hknown⟩ := hf.waits (by rw [hr]; rfl)
      rcases hrr : row.remote with u | k'
      · rw [← hnoted row hrow hid u hrr, currentRemote, ← hid, find?_eq_some_of_key h.key hrow]
        simp [Remote.isMoved, hrr]
      · have := hknown rfl
        rw [hrr] at this
        cases this
  · obtain ⟨-, hr | ⟨-, row, hrow, hid, hu⟩⟩ := mem_resolve hx'
    · exact (hf.known uid' hr).2
    · exact hnoted row hrow hid uid' hu

theorem mem_mails (h : s.Kept) (hs : s.operations = op :: ops) {a : Nat × Nat} (ha : a ∈ s.refs) :
    a.2 ∈ op.mails ↔ op.concerns a.1 := by
  have hmem : op ∈ s.operations := by rw [hs]; exact List.mem_cons_self
  rw [Operation.concerns_iff, Operation.mails, List.mem_map]
  refine exists_congr fun x ↦ and_congr_right fun hx ↦ ?_
  exact (h.refs _ (mem_refs.2 (.inr ⟨op, hmem, x, hx, rfl⟩)) a ha).symm

/-- The first operation is about the messages it means. -/
theorem picks_iff (h : s.Kept) (hs : s.operations = op :: ops) {e : Entry}
    (he : e ∈ s.server.entries) :
    Server.picks op.mailbox ((resolve s.rows op.messages).map (·.2)) e ↔ e.mail ∈ op.mails := by
  rw [Server.picks_iff, Operation.mails]
  constructor
  · rintro ⟨hm, hu⟩
    obtain ⟨⟨x, uid⟩, hx, hxu⟩ := List.mem_map.1 hu
    obtain ⟨uid', ht, -, huniq⟩ := h.found hs (mem_resolve hx).1
    obtain ⟨f, hf, hfm, hfu, hfx⟩ := s.server.mem_named.1 ht.there
    refine List.mem_map.2 ⟨x, (mem_resolve hx).1, ?_⟩
    rw [← hfx, h.distinct.eq_of_pair he hf (hm.trans hfm.symm)]
    exact hxu.symm.trans ((huniq uid hx).trans hfu.symm)
  · intro hmail
    obtain ⟨x, hx, hxe⟩ := List.mem_map.1 hmail
    obtain ⟨uid, ht, hres, -⟩ := h.found hs hx
    obtain ⟨f, hf, hfm, hfu, hfx⟩ := s.server.mem_named.1 ht.there
    obtain rfl := h.distinct.eq_of_mail he hf (hxe.symm.trans hfx.symm)
    exact ⟨hfm, List.mem_map.2 ⟨_, hres, hfu.symm⟩⟩

/-- An operation that finds nothing is about nothing. -/
theorem messages_eq_nil (h : s.Kept) (hs : s.operations = op :: ops)
    (hnil : resolve s.rows op.messages = []) : op.messages = [] := by
  rw [List.eq_nil_iff_forall_not_mem]
  intro x hx
  obtain ⟨uid, -, hres, -⟩ := h.found hs hx
  rw [hnil] at hres
  cases hres

/-- **The first operation does to the server what it is to do.** -/
theorem places_apply (h : s.Kept) (hs : s.operations = op :: ops) (hspares : s.Spares op)
    (told : Bool) (settled : Nat) :
    (s.apply op told settled).server.places.Perm (s.server.places.filterMap op.effect) := by
  have hpicks := fun e he ↦ h.picks_iff hs (e := e) he
  rw [apply.eq_def]
  by_cases hnil : resolve s.rows op.messages = []
  · rw [if_pos hnil]
    have hsame : ∀ p, op.effect p = some p := fun p ↦
      effect_of_notMem (by rw [Operation.mails, h.messages_eq_nil hs hnil]; simp)
    rw [show op.effect = some from funext hsame, List.filterMap_some]
  rw [if_neg hnil, Server.places, Server.places, List.filterMap_map]
  rcases op with ⟨mailbox, messages, flag, value⟩ | ⟨source, target, messages⟩ |
    ⟨mailbox, messages⟩
  · refine List.Perm.of_eq ?_
    change List.map _ (List.map _ s.server.entries) = _
    rw [List.map_map, ← List.filterMap_eq_map]
    refine List.filterMap_congr fun e he ↦ ?_
    rw [Function.comp_apply, Function.comp_apply, Function.comp_apply, Operation.effect.eq_def]
    by_cases hp : e.mail ∈ (Operation.flag mailbox messages flag value).mails
    · rw [if_pos (show Server.picks mailbox _ e from (hpicks e he).2 hp),
        if_pos (show e.place.mail ∈ _ from hp)]
      rfl
    · rw [if_neg (show ¬Server.picks mailbox _ e from mt (hpicks e he).1 hp),
        if_neg (show e.place.mail ∉ _ from hp)]
  · have hne : target ≠ source := h.apart (.move source target messages)
      (by rw [hs]; exact List.mem_cons_self) target rfl
    change List.Perm (List.map _ (Server.moveMessages _ _ _ _).entries) _
    rw [Server.moveMessages_entries hne hspares, List.map_append,
      Server.copies_map _ _ _ _ fun _ _ ↦ rfl]
    set picks := Server.picks source
      ((resolve s.rows (Operation.move source target messages).messages).map (·.2))
    have heffect : ∀ e ∈ s.server.entries,
        ((Operation.move source target messages).effect ∘ Entry.place) e =
          some (if picks e then { e.place with mailbox := target } else e.place) := by
      intro e he
      rw [Function.comp_apply, Operation.effect.eq_def]
      by_cases hp : e.mail ∈ (Operation.move source target messages).mails
      · rw [if_pos (show picks e from (hpicks e he).2 hp), if_pos (show e.place.mail ∈ _ from hp)]
      · rw [if_neg (show ¬picks e from mt (hpicks e he).1 hp),
          if_neg (show e.place.mail ∉ _ from hp)]
    rw [List.filterMap_congr heffect, List.filterMap_eq_map']
    refine List.Perm.trans ?_ ((List.filter_append_perm picks s.server.entries).map _)
    rw [List.map_append]
    refine List.perm_append_comm.trans (List.Perm.of_eq (congr_arg₂ _ ?_ ?_))
    · refine List.map_congr_left fun e he ↦ ?_
      rw [if_pos (List.mem_filter.1 he).2]
      rfl
    · refine List.map_congr_left fun e he ↦ ?_
      have := (List.mem_filter.1 he).2
      rw [if_neg (by simpa using this)]
  · refine List.Perm.of_eq ?_
    change List.map _ (Server.expunge _ _ _).entries = _
    rw [Server.expunge_entries hspares, ← List.filterMap_eq_map, List.filterMap_filter]
    refine List.filterMap_congr fun e he ↦ ?_
    rw [Function.comp_apply, Function.comp_apply, Operation.effect.eq_def]
    by_cases hp : e.mail ∈ (Operation.destroy mailbox messages).mails
    · rw [if_pos (show e.place.mail ∈ _ from hp),
        show Server.picks mailbox _ e = true from (hpicks e he).2 hp]
      rfl
    · rw [if_neg (show e.place.mail ∉ _ from hp),
        show Server.picks mailbox _ e = false from Bool.eq_false_iff.2 (mt (hpicks e he).1 hp)]
      rfl

theorem distinct_apply (h : s.Kept) (hs : s.operations = op :: ops) (hspares : s.Spares op)
    (told : Bool) (settled : Nat) : (s.apply op told settled).server.Distinct := by
  rw [apply.eq_def]
  by_cases hnil : resolve s.rows op.messages = []
  · rw [if_pos hnil]
    exact h.distinct
  rw [if_neg hnil]
  rcases op with ⟨mailbox, messages, flag, value⟩ | ⟨source, target, messages⟩ |
    ⟨mailbox, messages⟩
  · exact Server.distinct_storeFlag h.distinct _ _ _ _
  · exact Server.distinct_moveMessages h.distinct (h.apart (.move source target messages)
      (by rw [hs]; exact List.mem_cons_self) target rfl) hspares
  · exact Server.distinct_expunge h.distinct hspares

/-- The messages an operation does not take away stay where they are. -/
theorem named_apply (h : s.Kept) (hs : s.operations = op :: ops) (hspares : s.Spares op)
    (told : Bool) (settled : Nat) {mailbox uid mail : Nat} (hn : mail ∈ s.server.named mailbox uid)
    (hstay : (∃ m messages flag value, op = .flag m messages flag value) ∨ mail ∉ op.mails) :
    mail ∈ (s.apply op told settled).server.named mailbox uid := by
  obtain ⟨e, he, hm, hu, rfl⟩ := s.server.mem_named.1 hn
  have hpicks : e.mail ∉ op.mails →
      Server.picks op.mailbox ((resolve s.rows op.messages).map (·.2)) e = false :=
    fun hmail ↦ Bool.eq_false_iff.2 (mt (h.picks_iff hs he).1 hmail)
  rw [apply.eq_def]
  by_cases hnil : resolve s.rows op.messages = []
  · rw [if_pos hnil]
    exact hn
  rw [if_neg hnil]
  rcases op with ⟨mailbox', messages, flag, value⟩ | ⟨source, target, messages⟩ |
    ⟨mailbox', messages⟩
  · exact Server.mem_named_storeFlag hn _ _ _ _
  · have hne : target ≠ source := h.apart (.move source target messages)
      (by rw [hs]; exact List.mem_cons_self) target rfl
    refine (Server.mem_named _).2 ⟨e, ?_, hm, hu, rfl⟩
    change e ∈ (Server.moveMessages _ _ _ _).entries
    rw [Server.moveMessages_entries hne hspares]
    refine List.mem_append_left _ (List.mem_filter.2 ⟨he, ?_⟩)
    rw [show Server.picks source _ e = false from hpicks (hstay.resolve_left (by simp))]
    rfl
  · refine (Server.mem_named _).2 ⟨e, ?_, hm, hu, rfl⟩
    change e ∈ (Server.expunge _ _ _).entries
    rw [Server.expunge_entries hspares]
    refine List.mem_filter.2 ⟨he, ?_⟩
    rw [show Server.picks mailbox' _ e = false from hpicks (hstay.resolve_left (by simp))]
    rfl

end Kept

/-! ### Where the queue finds a message afterwards -/

/-- Nothing follows a deletion. -/
theorem Follows.not_concerns {ops : List Operation} (h : s.Follows id uid none ops) :
    ∀ op ∈ ops, op.concerns id = false := by
  induction ops with
  | nil => exact nofun
  | cons op ops ih =>
    obtain ⟨hop, hrest⟩ := follows_cons.1 h
    have hc : op.concerns id = false := by
      rw [Bool.eq_false_iff]
      intro hc
      obtain ⟨x, hx, hid⟩ := Operation.concerns_iff.1 hc
      obtain ⟨spot, hspot, -⟩ := hop x hx hid
      cases hspot
    rw [carries_of_not_concerns hc] at hrest
    exact List.forall_mem_cons.2 ⟨hc, ih hrest⟩

theorem follows_of_not_concerns {ops : List Operation} {c : Option Spot}
    (h : ∀ op ∈ ops, op.concerns id = false) : s.Follows id uid c ops := by
  induction ops generalizing c with
  | nil => exact trivial
  | cons op ops ih =>
    obtain ⟨hop, hrest⟩ := List.forall_mem_cons.1 h
    refine follows_cons.2 ⟨fun x hx hid ↦ ?_, ih hrest⟩
    rw [Operation.concerns_iff.2 ⟨x, hx, hid⟩] at hop
    cases hop

theorem spotAfter_of_not_concerns {ops : List Operation} {c : Option Spot}
    (h : ∀ op ∈ ops, op.concerns id = false) : spotAfter id c ops = c := by
  induction ops generalizing c with
  | nil => rfl
  | cons op ops ih =>
    obtain ⟨hop, hrest⟩ := List.forall_mem_cons.1 h
    change spotAfter id (op.carries id c) ops = c
    rw [carries_of_not_concerns hop]
    exact ih hrest

/-- A move of the message decides where it is, whatever came before. -/
theorem carries_cases (op : Operation) (id : Nat) :
    (∀ c, op.carries id c = c) ∨ (op.concerns id ∧ ∀ c, op.carries id c = none) ∨
      ∃ target, op.concerns id ∧ ∀ c, op.carries id c = some ⟨target, false⟩ := by
  by_cases hop : op.concerns id
  · rcases op with ⟨mailbox, messages, flag, value⟩ | ⟨source, target, messages⟩ |
      ⟨mailbox, messages⟩
    · exact .inl fun c ↦ by rw [Operation.carries.eq_def, if_pos hop]
    · exact .inr (.inr ⟨target, hop, fun c ↦ by rw [Operation.carries.eq_def, if_pos hop]⟩)
    · exact .inr (.inl ⟨hop, fun c ↦ by rw [Operation.carries.eq_def, if_pos hop]⟩)
  · exact .inl (carries_of_not_concerns (Bool.eq_false_iff.2 hop))

theorem exists_spotAfter {ops : List Operation} {m : Nat} {known : Bool} {spot : Spot}
    (h : spotAfter id (some ⟨m, known⟩) ops = some spot) (known' : Bool) :
    ∃ spot', spotAfter id (some ⟨m, known'⟩) ops = some spot' ∧ spot'.mailbox = spot.mailbox := by
  induction ops generalizing m known known' with
  | nil =>
    obtain rfl := Option.some.inj h
    exact ⟨⟨m, known'⟩, rfl, rfl⟩
  | cons op ops ih =>
    change spotAfter id (op.carries id _) ops = _ at h
    change ∃ spot', spotAfter id (op.carries id _) ops = _ ∧ _
    rcases carries_cases op id with hc | ⟨-, hc⟩ | ⟨target, -, hc⟩
    · rw [hc] at h ⊢
      exact ih h known'
    · rw [hc] at h ⊢
      exact ⟨spot, h, rfl⟩
    · rw [hc] at h ⊢
      exact ⟨spot, h, rfl⟩

/-- Behind a move everything waits. -/
theorem Follows.waits {ops : List Operation} {m : Nat}
    (h : s.Follows id uid (some ⟨m, false⟩) ops) :
    ∀ op ∈ ops, op.concerns id → op.waitsFor id ∧ ∃ row ∈ s.rows, row.id = id := by
  induction ops generalizing m with
  | nil => exact nofun
  | cons op ops ih =>
    obtain ⟨hop, hrest⟩ := follows_cons.1 h
    refine List.forall_mem_cons.2 ⟨fun hc ↦ ?_, ?_⟩
    · obtain ⟨x, hx, hid⟩ := Operation.concerns_iff.1 hc
      obtain ⟨spot, hspot, hf⟩ := hop x hx hid
      obtain rfl := Option.some.inj hspot
      rcases hr : x.remote with u | k
      · cases (hf.known u hr).1
      · have hmoved : x.remote.isMoved := by rw [hr]; rfl
        obtain ⟨row, hrow, hrid, -⟩ := hf.waits hmoved
        exact ⟨Operation.waitsFor_iff.2 ⟨x, hx, hid, hmoved⟩, row, hrow, hrid.trans hid⟩
    · rcases carries_cases op id with hc | ⟨-, hc⟩ | ⟨target, -, hc⟩
      · rw [hc] at hrest
        exact ih hrest
      · rw [hc] at hrest
        intro op' hop' hc'
        rw [hrest.not_concerns op' hop'] at hc'
        cases hc'
      · rw [hc] at hrest
        exact ih hrest

/-- Once a move has run, the operations behind it find the message in its row. -/
theorem Follows.settled {ops : List Operation} {m new : Nat} (known : Bool)
    (hw : (∃ op ∈ ops, op.waitsFor id) →
      ∃ row ∈ t.rows, row.id = id ∧ row.remote.isMoved = false)
    (h : s.Follows id uid (some ⟨m, false⟩) ops) : t.Follows id new (some ⟨m, known⟩) ops := by
  induction ops generalizing m known with
  | nil => exact trivial
  | cons op ops ih =>
    obtain ⟨hop, hrest⟩ := follows_cons.1 h
    have hw' : (∃ op' ∈ ops, op'.waitsFor id) →
        ∃ row ∈ t.rows, row.id = id ∧ row.remote.isMoved = false := by
      rintro ⟨op', hop', hwaits⟩
      exact hw ⟨op', List.mem_cons_of_mem op hop', hwaits⟩
    refine follows_cons.2 ⟨fun x hx hid ↦ ?_, ?_⟩
    · obtain ⟨spot, hspot, hf⟩ := hop x hx hid
      obtain rfl := Option.some.inj hspot
      refine ⟨⟨m, known⟩, rfl, hf.mailbox, fun u hu ↦ ?_, fun hmoved ↦ ?_⟩
      · cases (hf.known u hu).1
      · obtain ⟨row, hrow, hrid, hsettled⟩ := hw ⟨op, List.mem_cons_self,
          Operation.waitsFor_iff.2 ⟨x, hx, hid, hmoved⟩⟩
        exact ⟨row, hrow, hrid.trans hid.symm, fun _ ↦ hsettled⟩
    · rcases carries_cases op id with hc | ⟨-, hc⟩ | ⟨target, -, hc⟩
      · rw [hc] at hrest ⊢
        exact ih known hw' hrest
      · rw [hc] at hrest ⊢
        exact follows_of_not_concerns hrest.not_concerns
      · rw [hc] at hrest ⊢
        exact ih false hw' hrest

section Attempt

variable {op : Operation} {ops : List Operation} {mail mailbox : Nat}

/-- A message the operation leaves where it is. -/
theorem Track.next (ht : s.Track id mail mailbox uid) (hs : s.operations = op :: ops)
    (hops : t.operations = ops) (hc : op.carries id (some ⟨mailbox, true⟩) = some ⟨mailbox, true⟩)
    (hthere : mail ∈ t.server.named mailbox uid)
    (hrows : ∀ row : Message, row.id = id → (row ∈ t.rows ↔ row ∈ s.rows)) :
    t.Track id mail mailbox uid := by
  refine ⟨hthere, ?_, fun row hrow hid ↦ ?_, fun row hrow hid u hu ↦ ?_⟩
  · have hf := ht.follows
    rw [hs] at hf
    have hrest := (follows_cons.1 hf).2
    rw [hops]
    rw [hc] at hrest
    refine hrest.imp fun op' _ x _ hid spot hf ↦ ⟨hf.mailbox, hf.known, fun hmoved ↦ ?_⟩
    obtain ⟨row, hrow, hrid, hknown⟩ := hf.waits hmoved
    exact ⟨row, (hrows row (hrid.trans hid)).2 hrow, hrid, hknown⟩
  · obtain ⟨spot, hspot, hends⟩ := ht.ends row ((hrows row hid).1 hrow) hid
    rw [hs] at hspot
    change spotAfter id (op.carries id _) ops = _ at hspot
    rw [hc] at hspot
    exact ⟨spot, hops ▸ hspot, hends⟩
  · refine (ht.noted row ((hrows row hid).1 hrow) hid u hu).imp_right fun hstale ↦ ⟨hstale.1, ?_⟩
    intro op' hop'
    exact hstale.2 op' (by rw [hs, ← hops]; exact List.mem_cons_of_mem op hop')

/-- Nothing is left of a message that is deleted. -/
theorem Track.notMem_of_none (ht : s.Track id mail mailbox uid) (hs : s.operations = op :: ops)
    (hc : op.carries id (some ⟨mailbox, true⟩) = none) :
    (∀ row ∈ s.rows, row.id ≠ id) ∧ ∀ op' ∈ ops, op'.concerns id = false := by
  have hf := ht.follows
  rw [hs] at hf
  have hrest := (follows_cons.1 hf).2
  rw [hc] at hrest
  refine ⟨fun row hrow hid ↦ ?_, hrest.not_concerns⟩
  obtain ⟨spot, hspot, -⟩ := ht.ends row hrow hid
  rw [hs] at hspot
  change spotAfter id (op.carries id _) ops = _ at hspot
  rw [hc, spotAfter_of_not_concerns hrest.not_concerns] at hspot
  cases hspot

/-- The UID a message got in its new mailbox is the one the server tells, if it tells any. -/
theorem Kept.exists_new (h : s.Kept) {source target : Nat} {messages : List Target}
    (hs : s.operations = .move source target messages :: ops)
    (hspares : s.Spares (.move source target messages)) {x : Target} (hx : x ∈ messages)
    (hres : (x, uid) ∈ resolve s.rows messages) (told : Bool) :
    ∃ new, x.mail ∈ (s.server.moveMessages source ((resolve s.rows messages).map (·.2))
        target).named target new ∧
      ∀ v, s.answer (.move source target messages) told uid = some v → v = new := by
  set uids := (resolve s.rows messages).map (·.2)
  have hspares : s.server.moves ∨ s.server.spares source uids := hspares
  obtain ⟨uid', ht, -, huniq⟩ := h.found hs hx
  obtain rfl := huniq uid hres
  obtain ⟨e, he, hm, hu, hmail⟩ := s.server.mem_named.1 ht.there
  have hm : e.mailbox = source := hm
  have hne : target ≠ source := h.apart (.move source target messages)
    (by rw [hs]; exact List.mem_cons_self) target rfl
  have hnamed : ∀ copy, (e, copy) ∈ s.server.copies source uids target →
      x.mail ∈ (s.server.moveMessages source uids target).named target copy.uid := by
    intro copy hcopy
    refine (Server.mem_named _).2 ⟨copy, ?_, ?_⟩
    · rw [Server.moveMessages_entries hne hspares]
      exact List.mem_append_right _ (List.mem_map_of_mem hcopy)
    · obtain ⟨-, i, -, rfl, -⟩ := s.server.mem_copies hcopy
      exact ⟨rfl, rfl, hmail⟩
  rcases ha : s.answer (.move source target messages) told uid with - | v
  · have hp : Server.picks source uids e :=
      Server.picks_iff.2 ⟨hm, hu ▸ List.mem_map_of_mem hres⟩
    obtain ⟨copy, hcopy⟩ : ∃ copy, (e, copy) ∈ s.server.copies source uids target :=
      s.server.exists_copy he hp
    exact ⟨copy.uid, hnamed copy hcopy, nofun⟩
  · rw [answer] at ha
    by_cases htold : told
    · rw [if_pos htold] at ha
      obtain ⟨⟨uid', new'⟩, hfind, rfl⟩ := Option.map_eq_some_iff.1 ha
      obtain rfl : uid' = uid := by simpa using List.find?_some hfind
      obtain ⟨⟨f, copy⟩, hf, heq⟩ := List.mem_map.1 (List.mem_of_find?_eq_some hfind)
      obtain ⟨rfl, rfl⟩ := Prod.mk.inj heq
      have hfe := s.server.mem_copies hf
      obtain rfl := h.distinct.eq_of_pair he hfe.1.1
        (hm.trans (Server.picks_iff.1 hfe.1.2).1.symm) hu
      exact ⟨copy.uid, hnamed copy hf, fun v hv ↦ (Option.some.inj hv).symm⟩
    · rw [if_neg htold] at ha
      cases ha

/-- A message that moves. -/
theorem Kept.track_moved (h : s.Kept) {source target : Nat} {messages : List Target}
    (hs : s.operations = .move source target messages :: ops) (hops : t.operations = ops)
    (hspares : s.Spares (.move source target messages)) {told : Bool}
    (htells : ∀ x ∈ messages, (∃ op ∈ ops, op.waitsFor x.id) → ∀ row ∈ s.rows, row.id = x.id →
      ∀ p ∈ resolve s.rows messages, p.1.id = x.id →
        s.takes (.move source target messages) told row p.2)
    (hserver : t.server = s.server.moveMessages source ((resolve s.rows messages).map (·.2)) target)
    (hrows : t.rows = settleAll s.rows (s.answer (.move source target messages) told) target
      (resolve s.rows messages)) {a : Nat × Nat} (ha : a ∈ s.refs)
    (hc : (Operation.move source target messages).concerns a.1) :
    ∃ new, t.Track a.1 a.2 target new := by
  set op := Operation.move source target messages with hop
  have hmem : op ∈ s.operations := by rw [hs]; exact List.mem_cons_self
  have hne : target ≠ source := h.apart op hmem target rfl
  obtain ⟨x, hx, hxid⟩ := Operation.concerns_iff.1 hc
  have hmail : x.mail = a.2 :=
    (h.refs _ (mem_refs.2 (.inr ⟨op, hmem, x, hx, rfl⟩)) a ha).1 hxid
  obtain ⟨uid, ht, hres, huniq⟩ := h.found hs hx
  obtain ⟨new, hnamed, hnew⟩ := h.exists_new hs hspares hx hres told
  rw [hxid] at ht
  have hcarries : ∀ c, op.carries a.1 c = some ⟨target, false⟩ := fun c ↦ by
    rw [Operation.carries.eq_def, if_pos hc]
  have hrest : s.Follows a.1 uid (some ⟨target, false⟩) ops := by
    have hf := ht.follows
    rw [hs] at hf
    rw [← hcarries]
    exact (follows_cons.1 hf).2
  -- every pair about the message has the UID of `x`
  have hpair : ∀ p ∈ resolve s.rows messages, p.1.id = a.1 → p.2 = uid := by
    rintro ⟨y, v⟩ hp hid
    obtain ⟨uid', ht', -, huniq'⟩ := h.found hs (mem_resolve hp).1
    obtain ⟨e, he, hem, heu, hex⟩ := s.server.mem_named.1 ht.there
    obtain ⟨f, hf, hfm, hfu, hfx⟩ := s.server.mem_named.1 ht'.there
    have hsame : y.mail = x.mail := (h.refs _ (mem_refs.2 (.inr ⟨op, hmem, y,
      (mem_resolve hp).1, rfl⟩)) _ (mem_refs.2 (.inr ⟨op, hmem, x, hx, rfl⟩))).1 (hid.trans hxid.symm)
    rw [huniq' v hp, ← hfu, ← heu,
      h.distinct.eq_of_mail hf he (hfx.trans (hsame.trans hex.symm))]
  have hback : ∀ row ∈ t.rows, row.id = a.1 → row.remote.isMoved = false ∧
      ∃ row' ∈ s.rows, row'.id = a.1 ∧ row'.mailbox = row.mailbox ∧
        (row' = row ∨ row.home = some target ∧ row.remote = .uid new) := by
    intro row hrow hid
    rw [hrows] at hrow
    refine ⟨not_isMoved_of_settleAll hrow ⟨_, hres, hxid.trans hid.symm⟩, ?_⟩
    obtain ⟨row', hrow', hid', hmailbox, -, hsame⟩ := mem_settleAll hrow
    refine ⟨row', hrow', hid'.trans hid, hmailbox, hsame.imp_right ?_⟩
    rintro ⟨p, hp, hpid, v, hv, hu, hhome⟩
    rw [hpair p hp (hpid.trans hid)] at hv
    exact ⟨hhome, hnew v hv ▸ hu⟩
  have hwait : (∃ op ∈ ops, op.waitsFor a.1) → ∃ row ∈ t.rows, row.id = a.1 ∧
      row.home = some target := by
    rintro ⟨op', hop', hw⟩
    obtain ⟨y, hy, hyid, -⟩ := Operation.waitsFor_iff.1 hw
    obtain ⟨-, row, hrow, hid⟩ := hrest.waits op' hop' (Operation.concerns_iff.2 ⟨y, hy, hyid⟩)
    have htold := htells x hx ⟨op', hop', hxid ▸ hw⟩ row hrow (hid.trans hxid.symm)
    obtain ⟨row', hrow', hid', hhome⟩ := exists_settleAll h.key hrow fun p hp hpid ↦
      told_of_takes (htold p hp (hpid.trans (hid.trans hxid.symm)))
    exact ⟨row', hrows ▸ hrow', hid'.trans hid, hhome (.inl ⟨_, hres, hxid.trans hid.symm⟩)⟩
  have hkey : (t.rows.map (·.id)).Nodup := hrows ▸ settleAll_key.nodup h.key
  refine ⟨new, hserver ▸ hmail ▸ hnamed, ?_, fun row hrow hid ↦ ?_, fun row hrow hid u hu ↦ ?_⟩
  · rw [hops]
    refine hrest.settled true fun hw ↦ ?_
    obtain ⟨row, hrow, hid, -⟩ := hwait hw
    exact ⟨row, hrow, hid, (hback row hrow hid).1⟩
  · obtain ⟨hmoved, row', hrow', hid', hmailbox, -⟩ := hback row hrow hid
    obtain ⟨spot, hspot, hends, -⟩ := ht.ends row' hrow' hid'
    rw [hs] at hspot
    change spotAfter a.1 (op.carries a.1 _) ops = _ at hspot
    rw [hcarries] at hspot
    obtain ⟨spot', hspot', hsame⟩ := exists_spotAfter hspot true
    exact ⟨spot', hops ▸ hspot', hmailbox.symm.trans (hends.trans hsame.symm), fun _ ↦ hmoved⟩
  · obtain ⟨-, row', hrow', hid', -, rfl | ⟨hhome, hnewuid⟩⟩ := hback row hrow hid
    · have hold := (ht.noted row' hrow' hid u hu).resolve_right fun hstale ↦ by
        rw [hstale.2 op hmem] at hc
        cases hc
      by_cases hw : ∃ op ∈ ops, op.waitsFor a.1
      · obtain ⟨row, hrow'', hid'', hhome⟩ := hwait hw
        rw [List.inj_on_of_nodup_map hkey hrow'' hrow (hid''.trans hid.symm), hold.2] at hhome
        exact absurd (Option.some.inj hhome).symm hne
      · have hnot : ∀ op ∈ ops, op.concerns a.1 = false := fun op' hop' ↦
          Bool.eq_false_iff.2 fun hc' ↦ hw ⟨op', hop', (hrest.waits op' hop' hc').1⟩
        obtain ⟨spot, hspot, hends, -⟩ := ht.ends row' hrow' hid'
        rw [hs] at hspot
        change spotAfter a.1 (op.carries a.1 _) ops = _ at hspot
        rw [hcarries, spotAfter_of_not_concerns hnot] at hspot
        obtain rfl := Option.some.inj hspot
        refine .inr ⟨fun hhome ↦ ?_, hops ▸ hnot⟩
        rw [hold.2, hends] at hhome
        exact hne (Option.some.inj hhome).symm
    · exact .inl ⟨(Remote.uid.inj (hu.symm.trans hnewuid)), hhome⟩

theorem apply_rows (hstay : op.target? = none) (told : Bool) (settled : Nat) :
    (s.apply op told settled).rows = s.rows := by
  rw [apply.eq_def]
  by_cases hnil : resolve s.rows op.messages = []
  · rw [if_pos hnil]
  · rw [if_neg hnil]
    rcases op with ⟨_, _, _, _⟩ | ⟨_, _, _⟩ | ⟨_, _⟩
    · rfl
    · cases hstay
    · rfl

/-- A row after an operation. -/
theorem mem_apply_rows {told : Bool} {settled : Nat} {row : Message}
    (h : row ∈ (s.apply op told settled).rows) : ∃ row' ∈ s.rows, row'.id = row.id ∧
      row'.mail = row.mail ∧ (op.concerns row.id = false → row' = row) := by
  rcases htarget : op.target? with - | target
  · exact ⟨row, apply_rows htarget told settled ▸ h, rfl, rfl, fun _ ↦ rfl⟩
  rcases op with ⟨_, _, _, _⟩ | ⟨source, target', messages⟩ | ⟨_, _⟩
  · cases htarget
  · rw [apply.eq_def] at h
    by_cases hnil : resolve s.rows (Operation.move source target' messages).messages = []
    · rw [if_pos hnil] at h
      exact ⟨row, h, rfl, rfl, fun _ ↦ rfl⟩
    · rw [if_neg hnil] at h
      obtain ⟨row', hrow', hid, -, hmail, hsame⟩ := mem_settleAll h
      refine ⟨row', hrow', hid, hmail, fun hc ↦ hsame.resolve_right ?_⟩
      rintro ⟨p, hp, hpid, -⟩
      have := (mem_resolve (List.mem_of_mem_take hp)).1
      rw [Operation.concerns_iff.2 ⟨p.1, this, hpid⟩] at hc
      cases hc
  · cases htarget

theorem mem_apply_rows_of_not_concerns {told : Bool} {settled : Nat} {row : Message}
    (h : row ∈ s.rows) (hc : op.concerns row.id = false) :
    row ∈ (s.apply op told settled).rows := by
  rcases htarget : op.target? with - | target
  · exact (apply_rows htarget told settled).symm ▸ h
  rcases op with ⟨_, _, _, _⟩ | ⟨source, target', messages⟩ | ⟨_, _⟩
  · cases htarget
  · rw [apply.eq_def]
    by_cases hnil : resolve s.rows (Operation.move source target' messages).messages = []
    · rw [if_pos hnil]
      exact h
    · rw [if_neg hnil]
      refine mem_settleAll_of_ne h fun p hp hpid ↦ ?_
      have := (mem_resolve (List.mem_of_mem_take hp)).1
      rw [Operation.concerns_iff.2 ⟨p.1, this, hpid⟩] at hc
      cases hc
  · cases htarget

theorem apply_key (told : Bool) (settled : Nat) :
    ((s.apply op told settled).rows.map (·.id)).Sublist (s.rows.map (·.id)) := by
  rcases htarget : op.target? with - | target
  · rw [apply_rows htarget]
  rcases op with ⟨_, _, _, _⟩ | ⟨source, target', messages⟩ | ⟨_, _⟩
  · cases htarget
  · rw [apply.eq_def]
    by_cases hnil : resolve s.rows (Operation.move source target' messages).messages = []
    · rw [if_pos hnil]
    · rw [if_neg hnil]
      exact settleAll_key
  · cases htarget

/-- Where a message is after an operation. -/
theorem Kept.track_apply (h : s.Kept) (hs : s.operations = op :: ops) (hspares : s.Spares op)
    {told : Bool} (htells : op.target?.isSome → ∀ x ∈ op.messages, (∃ op ∈ ops, op.waitsFor x.id) →
      ∀ row ∈ s.rows, row.id = x.id → ∀ p ∈ resolve s.rows op.messages, p.1.id = x.id →
        s.takes op told row p.2)
    (hops : t.operations = ops)
    (hserver : t.server = (s.apply op told (resolve s.rows op.messages).length).server)
    (hrows : t.rows = (s.apply op told (resolve s.rows op.messages).length).rows)
    {a : Nat × Nat} (ha : a ∈ s.refs) (hat : a ∈ t.refs) :
    ∃ mailbox uid, t.Track a.1 a.2 mailbox uid := by
  obtain ⟨mailbox, uid, ht⟩ := h.track a ha
  by_cases hno : op.concerns a.1 = false
  · refine ⟨mailbox, uid, ht.next hs hops (carries_of_not_concerns hno _) ?_ fun row hid ↦ ?_⟩
    · rw [hserver]
      refine h.named_apply hs hspares _ _ ht.there (.inr fun hmail ↦ ?_)
      rw [(h.mem_mails hs ha).1 hmail] at hno
      cases hno
    · rw [hrows]
      rw [← hid] at hno
      refine ⟨fun hrow ↦ ?_, fun hrow ↦ mem_apply_rows_of_not_concerns hrow hno⟩
      obtain ⟨row', hrow', -, -, hsame⟩ := mem_apply_rows hrow
      exact hsame hno ▸ hrow'
  have hc := Bool.not_eq_false _ ▸ hno
  rcases op with ⟨m, messages, flag, value⟩ | ⟨source, target, messages⟩ | ⟨m, messages⟩
  · refine ⟨mailbox, uid, ht.next hs hops ?_ ?_ fun row _ ↦ ?_⟩
    · rw [Operation.carries.eq_def]
      exact ite_self _
    · rw [hserver]
      exact h.named_apply hs hspares _ _ ht.there (.inl ⟨m, messages, flag, value, rfl⟩)
    · rw [hrows, apply_rows rfl]
  · obtain ⟨x, hx, -⟩ := Operation.concerns_iff.1 hc
    obtain ⟨_, -, hres, -⟩ := h.found hs hx
    have happly := apply.eq_def s (.move source target messages) told
      (resolve s.rows messages).length
    rw [if_neg (List.ne_nil_of_mem hres)] at happly
    refine ⟨target, h.track_moved hs hops hspares (htells rfl) ?_ ?_ ha hc⟩
    · rw [hserver]
      exact congrArg Account.server happly
    · rw [hrows]
      refine (congrArg Account.rows happly).trans ?_
      exact congrArg _ (List.take_length)
  · have hgone := ht.notMem_of_none hs (by rw [Operation.carries.eq_def, if_pos hc])
    rcases mem_refs.1 hat with ⟨row, hrow, rfl⟩ | ⟨op', hop', x, hx, rfl⟩
    · rw [hrows, apply_rows rfl] at hrow
      exact absurd rfl (hgone.1 row hrow)
    · have := hgone.2 op' (hops ▸ hop')
      rw [Operation.concerns_iff.2 ⟨x, hx, rfl⟩] at this
      cases this

/-- **An operation that is done** leaves the others able to find their messages. -/
theorem Kept.attempt (h : s.Kept) {told : Bool} {direct : List Place}
    (hc : Twin.Careful (.attempt told) ⟨s, direct⟩) : (s.attempt (.done told)).Kept := by
  rw [Account.attempt]
  rcases hq : s.queue with - | ⟨item, rest⟩
  · exact h
  have hs : s.operations = item.operation :: rest.map (·.operation) := by
    rw [operations, hq, List.map_cons]
  obtain ⟨hspares, htells⟩ := hc item (by rw [hq]; rfl)
  set t : Account :=
    { (s.apply item.operation told (resolve s.rows item.operation.messages).length) with
      queue := rest
      sent := s.commands item.operation ++ s.sent }
  have hrefs : t.refs ⊆ s.refs := by
    intro a ha
    rcases mem_refs.1 ha with ⟨row, hrow, rfl⟩ | ⟨op', hop', x, hx, rfl⟩
    · obtain ⟨row', hrow', hid, hmail, -⟩ := mem_apply_rows hrow
      exact mem_refs.2 (.inl ⟨row', hrow', Prod.ext hid hmail⟩)
    · exact mem_refs.2 (.inr ⟨op', by rw [hs]; exact List.mem_cons_of_mem _ hop', x, hx, rfl⟩)
  refine ⟨(apply_key told _).nodup h.key, h.distinct_apply hs hspares told _,
    h.refs_subset hrefs, fun op' hop' ↦
      h.apart op' (by rw [hs]; exact List.mem_cons_of_mem _ hop'), fun a ha ↦ ?_⟩
  refine Kept.track_apply (t := t) h hs hspares (fun htarget x hx hw ↦ htells htarget x hx ?_)
    rfl rfl rfl (hrefs ha) ha
  obtain ⟨op', hop', hwaits⟩ := hw
  obtain ⟨item', hitem', rfl⟩ := List.mem_map.1 hop'
  rw [hq]
  exact List.any_eq_true.2 ⟨item', hitem', hwaits⟩

end Attempt

end Account

/-! ## Whole runs -/

namespace Twin

open Account

/-- The direct run is ahead of the account by what is queued. -/
structure Synced (t : Twin) : Prop where
  kept : t.account.Kept
  ahead : t.direct.Perm (t.account.server.places.filterMap (perform t.account.operations))

theorem Synced.step {t : Twin} (h : t.Synced) {turn : Turn} (hc : Careful turn t) :
    (step turn t).Synced := by
  obtain ⟨s, direct⟩ := t
  have hkept : s.Kept := h.kept
  have hahead : direct.Perm (s.server.places.filterMap (perform s.operations)) := h.ahead
  rcases turn with action | told
  · refine ⟨hkept.act hc, ?_⟩
    change List.Perm (direct.filterMap (s.effect action))
      ((s.act action).server.places.filterMap (perform (s.act action).operations))
    have hperform : perform (s.act action).operations =
        fun p ↦ (perform s.operations p).bind (s.effect action) := by
      funext p
      rw [act_operations, perform_append]
      exact congrArg _ (funext (perform_queued hkept action))
    rw [(Prod.mk.inj (act_server action)).1, hperform, ← List.filterMap_filterMap]
    exact hahead.filterMap _
  · refine ⟨hkept.attempt hc, ?_⟩
    change List.Perm direct ((s.attempt (.done told)).server.places.filterMap
      (perform (s.attempt (.done told)).operations))
    rw [attempt]
    rcases hq : s.queue with - | ⟨item, rest⟩
    · exact hahead
    have hs : s.operations = item.operation :: rest.map (·.operation) := by
      rw [operations, hq, List.map_cons]
    obtain ⟨hspares, -⟩ := hc item (by rw [show s.queue = item :: rest from hq]; rfl)
    refine hahead.trans ?_
    have hperform : perform s.operations =
        fun p ↦ (item.operation.effect p).bind (perform (rest.map (·.operation))) := by
      rw [hs]
      rfl
    rw [hperform, ← List.filterMap_filterMap]
    exact (hkept.places_apply hs hspares told _).symm.filterMap _

/-- An account in step with the server, and nothing queued. -/
structure Start (t : Twin) : Prop where
  key : (t.account.rows.map (·.id)).Nodup
  mails : (t.account.rows.map (·.mail)).Nodup
  distinct : t.account.server.Distinct
  queue : t.account.queue = []
  rows : ∀ row ∈ t.account.rows, ∃ uid, row.remote = .uid uid ∧ row.home = some row.mailbox ∧
    row.mail ∈ t.account.server.named row.mailbox uid
  direct : t.direct = t.account.server.places

theorem Start.synced {t : Twin} (h : t.Start) : t.Synced := by
  obtain ⟨s, direct⟩ := t
  have hops : s.operations = [] := by rw [operations, h.queue, List.map_nil]
  have hrefs : ∀ a ∈ s.refs, ∃ row ∈ s.rows, (row.id, row.mail) = a := by
    intro a ha
    refine (mem_refs.1 ha).resolve_right ?_
    rw [hops]
    rintro ⟨op, hop, -⟩
    cases hop
  refine ⟨⟨h.key, h.distinct, fun a ha b hb ↦ ?_, ?_, fun a ha ↦ ?_⟩, ?_⟩
  · obtain ⟨row, hrow, rfl⟩ := hrefs a ha
    obtain ⟨row', hrow', rfl⟩ := hrefs b hb
    constructor
    · intro hid
      rw [List.inj_on_of_nodup_map h.key hrow hrow' hid]
    · intro hmail
      rw [List.inj_on_of_nodup_map h.mails hrow hrow' hmail]
  · rw [show operations _ = [] from hops]
    exact fun op hop ↦ absurd hop List.not_mem_nil
  · obtain ⟨row, hrow, rfl⟩ := hrefs a ha
    obtain ⟨uid, hu, hhome, hnamed⟩ := h.rows row hrow
    refine ⟨row.mailbox, uid, hnamed, ?_, fun row' hrow' hid ↦ ?_, fun row' hrow' hid u hu' ↦ ?_⟩
    · rw [show operations _ = [] from hops]
      exact trivial
    · obtain rfl := List.inj_on_of_nodup_map h.key hrow' hrow hid
      refine ⟨⟨row'.mailbox, true⟩, ?_, rfl, fun _ ↦ by rw [hu]; rfl⟩
      rw [show operations _ = [] from hops]
      rfl
    · obtain rfl := List.inj_on_of_nodup_map h.key hrow' hrow hid
      exact .inl ⟨Remote.uid.inj (hu'.symm.trans hu), hhome⟩
  · change List.Perm direct (s.server.places.filterMap (perform s.operations))
    rw [show direct = s.server.places from h.direct, hops]
    exact List.Perm.of_eq (List.filterMap_some).symm

/-- Once the queue is empty, the server is where the direct run is. -/
def Caught (t : Twin) : Prop :=
  t.account.queue = [] → t.account.server.places.Perm t.direct

theorem Synced.caught {t : Twin} (h : t.Synced) : t.Caught := by
  intro hq
  have hops : t.account.operations = [] := by rw [operations, hq, List.map_nil]
  have hahead := h.ahead
  rw [hops] at hahead
  exact (hahead.trans (List.Perm.of_eq List.filterMap_some)).symm

/-- The account of three mailboxes, with what its server holds. -/
def startTwin : Twin := ⟨threeMailboxes, threeMailboxes.server.places⟩

theorem start_startTwin : startTwin.Start where
  key := by decide
  mails := by decide
  distinct := ⟨by decide, by decide⟩
  queue := rfl
  rows := by
    intro row hrow
    obtain rfl := List.mem_singleton.1 hrow
    exact ⟨5, rfl, rfl, by decide⟩
  direct := rfl

/-- The message is marked, goes to the second mailbox and on to the third, is marked there before
either move has run, and is deleted once everything has. -/
def patientTurns : List Turn :=
  [.act (.flag [1] .seen true), .act (.relocate [⟨1, 2⟩]), .attempt true,
    .act (.relocate [⟨1, 3⟩]), .act (.flag [1] .flagged true), .attempt true, .attempt true,
    .attempt true, .act (.destroy [1]), .attempt true]

/-- The message is deleted while its move is queued. -/
def hastyTurns : List Turn :=
  [.act (.relocate [⟨1, 2⟩]), .act (.destroy [1]), .attempt true, .attempt true]

end Twin

end Mailman

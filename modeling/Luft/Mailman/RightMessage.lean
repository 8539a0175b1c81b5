import Luft.Mailman.Actions

/-!
# An action hits the right message

Every command the queue sends names, by a mailbox and a UID, the message the person acted on, or
nothing.  What can go wrong is that a UID of one mailbox is taken for a UID of another: the row of a
message stands in the mailbox the message goes to while its UID may still be of the one it comes
from.  `Careful` says which events lead there; `right_run` is the result over runs without them.

The argument follows the operations that are queued for one message.  The last move before an
operation says in which mailbox the message will be when its turn comes (`cursor`), and where no
move comes before it the row must be at home already (`Right`).
-/

set_option autoImplicit false

namespace Mailman

open Grouped

/-- A row that has a UID has one of the mailbox it stands in. -/
def Message.AtHome (row : Message) : Prop := row.remote.isMoved ∨ row.home = some row.mailbox

instance (row : Message) : Decidable row.AtHome := inferInstanceAs (Decidable (_ ∨ _))

/-- Some of the operations wait for the UID of the message. -/
def waits (queue : List Item) (id : Nat) : Bool := queue.any (·.operation.waitsFor id)

namespace Account

variable (s : Account)

/-- The server tells a UID for the message that its row can take. -/
def takes (op : Operation) (told : Bool) (row : Message) (uid : Nat) : Bool :=
  (s.answer op told uid).any fun new ↦
    isFree s.rows row new && (resolve s.rows op.messages).all fun (t, uid') ↦
      t.id = row.id ∨ s.answer op told uid' ≠ some new

/-- The event takes no UID of one mailbox for one of another. -/
def Careful (e : AccountStep) (s : Account) : Prop :=
  match e with
  | .act (.flag ids _ _) => ∀ row ∈ s.locate ids, row.AtHome
  | .act (.relocate moves) => ∀ m ∈ s.leaving moves, m.1.AtHome
  | .act (.destroy ids) => ∀ row ∈ s.locate ids, row.AtHome
  | .attempt outcome =>
    ∀ item ∈ s.queue.head?, item.operation.target?.isSome →
      match outcome with
      | .done told => ∀ t ∈ item.operation.messages, waits s.queue.tail t.id →
          ∀ row ∈ s.rows, row.id = t.id → row.remote.isMoved ∨
            ∀ p ∈ resolve s.rows item.operation.messages, p.1.id = t.id →
              s.takes item.operation told row p.2
      | .failed _ => item.attempts + 1 ≥ giveUpAfter →
          ∀ t ∈ item.operation.messages, waits s.queue.tail t.id →
            ∀ row ∈ s.rows, row.id = t.id → row.remote.isMoved
      | .interrupted _ _ => ∀ t ∈ item.operation.messages, t.remote.isMoved = false
  | .renumber mailbox _ => ∀ item ∈ s.queue, ∀ t ∈ item.operation.messages,
      if t.remote.isMoved then ∀ row ∈ s.rows, row.id = t.id → row.home ≠ some mailbox
      else item.operation.mailbox ≠ mailbox
  | .insert _ _ _ => ∀ item ∈ s.queue, ∀ t ∈ item.operation.messages,
      t.id ≠ nextMessage s.rows
  | _ => True

instance (e : AccountStep) (s : Account) : Decidable (Careful e s) :=
  match e with
  | .act (.flag ids _ _) => inferInstanceAs (Decidable (∀ row ∈ s.locate ids, row.AtHome))
  | .act (.relocate moves) => inferInstanceAs (Decidable (∀ m ∈ s.leaving moves, m.1.AtHome))
  | .act (.destroy ids) => inferInstanceAs (Decidable (∀ row ∈ s.locate ids, row.AtHome))
  | .attempt (.done _) => inferInstanceAs (Decidable (∀ item ∈ s.queue.head?, _ → _))
  | .attempt (.failed _) => inferInstanceAs (Decidable (∀ item ∈ s.queue.head?, _ → _))
  | .attempt (.interrupted _ _) => inferInstanceAs (Decidable (∀ item ∈ s.queue.head?, _ → _))
  | .renumber _ _ => inferInstanceAs (Decidable (∀ item ∈ s.queue, ∀ t ∈ item.operation.messages, _))
  | .insert _ _ _ => inferInstanceAs (Decidable (∀ item ∈ s.queue, ∀ t ∈ item.operation.messages, _))
  | .arrive _ _ _ => .isTrue trivial
  | .vanish _ _ => .isTrue trivial
  | .mark _ _ _ _ => .isTrue trivial
  | .remove _ _ => .isTrue trivial
  | .clear _ => .isTrue trivial

/-! ## The operations queued for one message -/

/-- The row of the message, where it has a UID, has one of this mailbox. -/
def HomedIn (id mailbox : Nat) : Prop :=
  ∀ row ∈ s.rows, row.id = id → ∀ uid, row.remote = .uid uid → row.home = some mailbox

/-- The UID an operation will find for the message is one of the mailbox it selects.  `cursor` is
where the moves queued before it take the message, if there are any. -/
structure Right (cursor : Option Nat) (mailbox : Nat) (t : Target) : Prop where
  known : ∀ uid, t.remote = .uid uid → s.server.Names mailbox uid t.mail
  follows : t.remote.isMoved → ∀ m, cursor = some m → m = mailbox
  homed : t.remote.isMoved → cursor = none → s.HomedIn t.id mailbox

end Account

namespace Operation

/-- Where the message is after the operation, as far as the queue tells. -/
def leads (op : Operation) (id : Nat) (cursor : Option Nat) : Option Nat :=
  if op.concerns id then op.target?.or cursor else cursor

end Operation

/-- Where the message is after all the operations. -/
abbrev cursor (id : Nat) (start : Option Nat) (ops : List Operation) : Option Nat :=
  Runs.after (fun op ↦ op.leads id) ops start

namespace Account

/-- Each of the operations finds the message where it looks for it. -/
def Chain (s : Account) (id : Nat) (start : Option Nat) (ops : List Operation) : Prop :=
  Runs.Along (fun op ↦ op.leads id)
    (fun op c ↦ ∀ t ∈ op.messages, t.id = id → s.Right c op.mailbox t) ops start

variable {s t : Account} {id : Nat}

theorem chain_cons {c : Option Nat} {op : Operation} {ops : List Operation} :
    s.Chain id c (op :: ops) ↔ (∀ t ∈ op.messages, t.id = id → s.Right c op.mailbox t) ∧
      s.Chain id (op.leads id c) ops := Iff.rfl

theorem chain_append {c : Option Nat} {ops ops' : List Operation} :
    s.Chain id c (ops ++ ops') ↔ s.Chain id c ops ∧ s.Chain id (cursor id c ops) ops' :=
  Runs.along_append _ ops ops' c

/-- A chain in another state, where the operations still find the message. -/
theorem Chain.imp {c : Option Nat} {ops : List Operation}
    (h : ∀ op ∈ ops, ∀ m ∈ op.messages, m.id = id → ∀ c, s.Right c op.mailbox m →
      t.Right c op.mailbox m) (hs : s.Chain id c ops) : t.Chain id c ops :=
  Runs.Along.imp (fun op hop c hc m hm hid ↦ h op hop m hm hid c (hc m hm hid)) hs

theorem Right.imp {c : Option Nat} {mailbox : Nat} {m : Target}
    (hn : ∀ uid mail, s.server.Names mailbox uid mail → t.server.Names mailbox uid mail)
    (hh : s.HomedIn m.id mailbox → t.HomedIn m.id mailbox) (h : s.Right c mailbox m) :
    t.Right c mailbox m :=
  ⟨fun uid hu ↦ hn uid m.mail (h.known uid hu), h.follows, fun hm hc ↦ hh (h.homed hm hc)⟩

theorem cursor_append (c : Option Nat) (ops : List Operation) (op : Operation) :
    cursor id c (ops ++ [op]) = op.leads id (cursor id c ops) :=
  Runs.after_append ops [op] c

theorem leads_some {op : Operation} {c c' : Option Nat} {m : Nat} (h : op.leads id c = some m)
    (hc : c = some m → c' = some m) : op.leads id c' = some m := by
  rw [Operation.leads] at h ⊢
  by_cases hop : op.concerns id
  · rw [if_pos hop] at h ⊢
    rcases ht : op.target? with - | target
    · rw [ht] at h
      exact hc h
    · rw [ht] at h
      exact h
  · rw [if_neg hop] at h ⊢
    exact hc h

/-- Only an operation on the message takes it anywhere. -/
theorem exists_concerns {ops : List Operation} {m : Nat} (h : cursor id none ops = some m) :
    ∃ op ∈ ops, op.concerns id := by
  by_contra hnone
  have hcursor : cursor id none ops = none := by
    clear h
    induction ops with
    | nil => rfl
    | cons op ops ih =>
      have hop : op.leads id none = none := by
        rw [Operation.leads, if_neg fun hop ↦ hnone ⟨op, List.mem_cons_self, hop⟩]
      change cursor id (op.leads id none) ops = none
      rw [hop]
      refine ih fun hrest ↦ hnone ?_
      obtain ⟨op', hop', hc⟩ := hrest
      exact ⟨op', List.mem_cons_of_mem op hop', hc⟩
  rw [hcursor] at h
  cases h

/-- A move that is queued decides where the message is, whatever came before. -/
theorem cursor_some {c c' : Option Nat} {ops : List Operation} {m : Nat}
    (h : cursor id c ops = some m) (hc : c = some m → c' = some m) :
    cursor id c' ops = some m := by
  induction ops generalizing c c' with
  | nil => exact hc h
  | cons op ops ih => exact ih h fun hl ↦ leads_some hl hc

theorem leads_isSome (op : Operation) (m : Nat) : ∃ m', op.leads id (some m) = some m' := by
  rw [Operation.leads]
  by_cases hop : op.concerns id
  · rw [if_pos hop]
    rcases op.target? with - | target
    · exact ⟨m, rfl⟩
    · exact ⟨target, rfl⟩
  · rw [if_neg hop]
    exact ⟨m, rfl⟩

/-- After a move that is queued the row does not matter. -/
theorem Chain.imp_some {m : Nat} {ops : List Operation}
    (hn : ∀ mailbox uid mail, s.server.Names mailbox uid mail → t.server.Names mailbox uid mail)
    (h : s.Chain id (some m) ops) : t.Chain id (some m) ops := by
  induction ops generalizing m with
  | nil => exact trivial
  | cons op ops ih =>
    refine chain_cons.2 ⟨fun x hx hid ↦ ?_, ?_⟩
    · have hr := h.1 x hx hid
      exact ⟨fun uid hu ↦ hn _ _ _ (hr.known uid hu), hr.follows, fun _ hc ↦ absurd hc (by simp)⟩
    · have h2 := (chain_cons.1 h).2
      obtain ⟨m', hm'⟩ : ∃ m', op.leads id (some m) = some m' := leads_isSome op m
      rw [hm'] at h2 ⊢
      exact ih h2

/-- Once the move before them has run, the operations find the message in its row. -/
theorem Chain.settled {m : Nat} {ops : List Operation}
    (hw : (ops.any fun op ↦ op.waitsFor id) → t.HomedIn id m)
    (hn : ∀ mailbox uid mail, s.server.Names mailbox uid mail → t.server.Names mailbox uid mail)
    (h : s.Chain id (some m) ops) : t.Chain id none ops := by
  induction ops with
  | nil => exact trivial
  | cons op ops ih =>
    refine chain_cons.2 ⟨?_, ?_⟩
    · intro x hx hid
      have hr := h.1 x hx hid
      refine ⟨fun uid hu ↦ hn _ _ _ (hr.known uid hu), fun _ _ hc ↦ absurd hc (by simp),
        fun hmoved _ ↦ ?_⟩
      obtain rfl : m = op.mailbox := hr.follows hmoved m rfl
      rw [hid]
      refine hw (List.any_eq_true.2 ⟨op, List.mem_cons_self, ?_⟩)
      exact List.any_eq_true.2 ⟨x, hx, decide_eq_true ⟨hid, hmoved⟩⟩
    · have hrest : (ops.any fun op ↦ op.waitsFor id) → t.HomedIn id m := by
        intro hany
        exact hw (by rw [List.any_cons, hany, Bool.or_true])
      have h2 := (chain_cons.1 h).2
      rw [Operation.leads] at h2 ⊢
      by_cases hop : op.concerns id
      · rw [if_pos hop] at h2 ⊢
        rcases ht : op.target? with - | target
        · rw [ht] at h2
          exact ih hrest h2
        · rw [ht] at h2
          exact h2.imp_some hn
      · rw [if_neg hop] at h2 ⊢
        exact ih hrest h2

/-! ## What careful events keep -/

/-- The operations that are queued. -/
def operations (s : Account) : List Operation := s.queue.map (·.operation)

/-- The rows and the queue of an account whose commands name what was meant. -/
structure Sound (s : Account) : Prop where
  key : (s.rows.map (·.id)).Nodup
  named : ∀ row ∈ s.rows, ∀ uid home, row.remote = .uid uid → row.home = some home →
    s.server.Names home uid row.mail
  same : ∀ op ∈ s.operations, ∀ t ∈ op.messages, ∀ row ∈ s.rows, row.id = t.id →
    row.mail = t.mail
  chain : ∀ id, s.Chain id none s.operations
  shown : ∀ id m, cursor id none s.operations = some m → ∀ row ∈ s.rows, row.id = id →
    row.mailbox = m

/-- Every pair that was sent named the message that was meant, or nothing. -/
def RightMessages (s : Account) : Prop := ∀ c ∈ s.sent, ∀ x ∈ c.named, x = c.meant

theorem HomedIn.of_subset {m : Nat} (hrows : t.rows ⊆ s.rows) (h : s.HomedIn id m) :
    t.HomedIn id m := fun row hrow ↦ h row (hrows hrow)

/-- The operation is about messages as their rows are now, in the mailbox they stand in. -/
def Offers (s : Account) (op : Operation) : Prop :=
  ∀ t ∈ op.messages, ∃ row ∈ s.rows, row.toTarget = t ∧ row.mailbox = op.mailbox ∧ row.AtHome

theorem operations_enqueue (op : Operation) :
    (s.enqueue op).operations = s.operations ++ [op] := by
  rw [operations, enqueue, List.map_append]
  rfl

theorem apply_queue (op : Operation) (told : Bool) (settled : Nat) :
    (s.apply op told settled).queue = s.queue := by
  rw [apply.eq_def]
  by_cases hnil : resolve s.rows op.messages = []
  · rw [if_pos hnil]
  · rw [if_neg hnil]
    rcases op with - | - | - <;> rfl

theorem foldl_enqueue (ops : List Operation) :
    ops.foldl enqueue s = { s with queue := s.queue ++ ops.map (⟨·, 0⟩) } := by
  induction ops generalizing s with
  | nil => rw [List.foldl_nil, List.map_nil, List.append_nil]
  | cons op ops ih => rw [List.foldl_cons, ih, enqueue, List.append_assoc]; rfl

/-- What an attempt of an operation does to an account: the server goes on, and rows of messages
that move get the UIDs that name them now. -/
structure Attempted (t : Account) (op : Operation) (s : Account) : Prop where
  names : ∀ mailbox uid mail, s.server.Names mailbox uid mail → t.server.Names mailbox uid mail
  key : (t.rows.map (·.id)).Sublist (s.rows.map (·.id))
  rows : ∀ row ∈ t.rows, ∃ row' ∈ s.rows, row'.id = row.id ∧ row'.mailbox = row.mailbox ∧
    row'.mail = row.mail ∧ (row' = row ∨ op.concerns row.id ∧ ∃ target, op.target? = some target ∧
      row.home = some target ∧ ∀ uid, row.remote = .uid uid →
        t.server.Names target uid row.mail)

namespace Attempted

variable {op : Operation}

theorem named (ht : t.Attempted op s) (h : s.Sound) : ∀ row ∈ t.rows, ∀ uid home,
    row.remote = .uid uid → row.home = some home → t.server.Names home uid row.mail := by
  intro row hrow uid home hu hh
  obtain ⟨row', hrow', -, -, -, rfl | ⟨-, target, -, hhome, hnames⟩⟩ := ht.rows row hrow
  · exact ht.names _ _ _ (h.named row' hrow' uid home hu hh)
  · rw [hhome, Option.some_inj] at hh
    exact hh ▸ hnames uid hu

theorem same (ht : t.Attempted op s) (h : s.Sound) {op' : Operation} (hop : op' ∈ s.operations) :
    ∀ x ∈ op'.messages, ∀ row ∈ t.rows, row.id = x.id → row.mail = x.mail := by
  intro x hx row hrow hid
  obtain ⟨row', hrow', hid', -, hmail, -⟩ := ht.rows row hrow
  rw [← hmail]
  exact h.same op' hop x hx row' hrow' (hid'.trans hid)

theorem shown (ht : t.Attempted op s) {m : Nat}
    (h : ∀ row ∈ s.rows, row.id = id → row.mailbox = m) :
    ∀ row ∈ t.rows, row.id = id → row.mailbox = m := by
  intro row hrow hid
  obtain ⟨row', hrow', hid', hmailbox, -⟩ := ht.rows row hrow
  rw [← hmailbox]
  exact h row' hrow' (hid'.trans hid)

/-- The rows of messages that do not move stay as they are. -/
theorem homedIn (ht : t.Attempted op s) (hop : ¬(op.concerns id ∧ op.target?.isSome)) {m : Nat}
    (h : s.HomedIn id m) : t.HomedIn id m := by
  intro row hrow hid uid hu
  obtain ⟨row', hrow', hid', -, -, rfl | ⟨hconcerns, target, htarget, -⟩⟩ := ht.rows row hrow
  · exact h row' hrow' hid uid hu
  · rw [hid] at hconcerns
    exact absurd ⟨hconcerns, by rw [htarget]; rfl⟩ hop

end Attempted

theorem told_of_takes {op : Operation} {told : Bool} {row : Message} {uid : Nat}
    (h : s.takes op told row uid) : ∃ new, s.answer op told uid = some new ∧
      isFree s.rows row new ∧
        ∀ p ∈ resolve s.rows op.messages, p.1.id ≠ row.id → s.answer op told p.2 ≠ some new := by
  obtain ⟨new, hnew, hfree⟩ := (Option.any_eq_true _ _).1 h
  rw [Bool.and_eq_true] at hfree
  refine ⟨new, hnew, hfree.1, fun p hp hne ↦ ?_⟩
  have := of_decide_eq_true (List.all_eq_true.1 hfree.2 p hp)
  exact this.resolve_left hne

namespace Sound

theorem row_eq (h : s.Sound) {row row' : Message} (hrow : row ∈ s.rows) (hrow' : row' ∈ s.rows)
    (hid : row.id = row'.id) : row = row' := List.inj_on_of_nodup_map h.key hrow hrow' hid

/-- Fewer rows and a later server. -/
theorem shrink (h : s.Sound) {rows : List Message} {server : Server}
    (hrows : rows.Sublist s.rows) (hserver : s.server.Later server) :
    ({ s with rows, server } : Account).Sound where
  key := (hrows.map _).nodup h.key
  named := fun row hrow uid home hu hh ↦
    hserver.names (h.named row (hrows.subset hrow) uid home hu hh)
  same := fun op hop t ht row hrow ↦ h.same op hop t ht row (hrows.subset hrow)
  chain := fun id ↦ (h.chain id).imp fun _ _ _ _ _ _ ↦
    Right.imp (fun _ _ ↦ hserver.names) (HomedIn.of_subset hrows.subset)
  shown := fun id m hm row hrow ↦ h.shown id m hm row (hrows.subset hrow)

/-! ### Actions -/

/-- A row that is at home is found by an operation queued on it now. -/
theorem right_toTarget (h : s.Sound) {row : Message} (hrow : row ∈ s.rows) (hhome : row.AtHome) :
    s.Right (cursor row.id none s.operations) row.mailbox row.toTarget where
  known := by
    intro uid hu
    rcases hhome with hmoved | hhome
    · rw [show row.remote = .uid uid from hu] at hmoved
      cases hmoved
    · exact h.named row hrow uid row.mailbox hu hhome
  follows := fun _ m hm ↦ (h.shown row.id m hm row hrow rfl).symm
  homed := by
    intro hmoved _ row' hrow' hid uid hu
    rw [h.row_eq hrow' hrow hid] at hu
    rw [show row.toTarget.remote = .uid uid from hu] at hmoved
    cases hmoved

/-- An operation on messages as their rows are now. -/
theorem enqueue (h : s.Sound) {op : Operation} (hop : s.Offers op) (hstay : op.target? = none) :
    (s.enqueue op).Sound where
  key := h.key
  named := h.named
  same := by
    intro op' hop' t ht row hrow hid
    rw [operations_enqueue, List.mem_append, List.mem_singleton] at hop'
    rcases hop' with hop' | rfl
    · exact h.same op' hop' t ht row hrow hid
    · obtain ⟨row', hrow', rfl, -, -⟩ := hop t ht
      rw [h.row_eq hrow hrow' hid]
      rfl
  chain := by
    intro id
    have hright : ∀ {c m x}, s.Right c m x → (s.enqueue op).Right c m x :=
      fun hr ↦ ⟨hr.known, hr.follows, hr.homed⟩
    rw [operations_enqueue, chain_append]
    refine ⟨(h.chain id).imp fun _ _ _ _ _ _ ↦ hright, fun t ht hid ↦ ?_, trivial⟩
    obtain ⟨row, hrow, rfl, hmailbox, hhome⟩ := hop t ht
    rw [← hid, ← hmailbox]
    exact hright (h.right_toTarget hrow hhome)
  shown := by
    intro id m hm
    rw [operations_enqueue, cursor_append, Operation.leads, hstay, Option.none_or, ite_self] at hm
    exact h.shown id m hm

/-- A move of messages as their rows are now. -/
theorem moveGroup (h : s.Sound) {source target : Nat} {found : List (Message × Nat)}
    (hfound : ∀ m ∈ found, m.1 ∈ s.rows ∧ m.1.mailbox = source ∧ m.1.AtHome) :
    (s.moveGroup source target found).Sound := by
  have hoffers : s.Offers (.move source target (found.map (·.1.toTarget))) := by
    intro t ht
    obtain ⟨m, hm, rfl⟩ := List.mem_map.1 ht
    exact ⟨m.1, (hfound m hm).1, rfl, (hfound m hm).2⟩
  have hold : ∀ row ∈ (s.moveGroup source target found).rows, ∃ row' ∈ s.rows,
      row'.id = row.id ∧ row'.mail = row.mail ∧
        (row.id ∈ found.map (·.1.id) → row.mailbox = target) ∧
          (row' = row ∨ row.id ∈ found.map (·.1.id) ∧ row.remote.isMoved) := by
    intro row hrow
    obtain ⟨row', hrow', rfl⟩ := mem_relocate.1 hrow
    refine ⟨row', hrow', ?_⟩
    by_cases hr : row'.id ∈ found.map (·.1.id) ∧ row'.mailbox ≠ target
    · rw [if_pos hr]
      exact ⟨rfl, rfl, fun _ ↦ rfl, .inr ⟨hr.1, rfl⟩⟩
    · rw [if_neg hr]
      exact ⟨rfl, rfl, fun hid ↦ not_not.1 fun hne ↦ hr ⟨hid, hne⟩, .inl rfl⟩
  have hhomed : ∀ id m, s.HomedIn id m → (s.moveGroup source target found).HomedIn id m := by
    intro id m hh row hrow hid uid hu
    obtain ⟨row', hrow', hid', -, -, rfl | ⟨-, hmoved⟩⟩ := hold row hrow
    · exact hh row' hrow' hid uid hu
    · rw [hu] at hmoved
      cases hmoved
  have hright : ∀ {c m x}, s.Right c m x → (s.moveGroup source target found).Right c m x :=
    fun hr ↦ ⟨hr.known, hr.follows, fun hm hc ↦ hhomed _ _ (hr.homed hm hc)⟩
  refine ⟨?_, ?_, ?_, fun id ↦ ?_, ?_⟩
  · exact (relocate_key _ _).symm ▸ h.key
  · intro row hrow uid home hu hh
    obtain ⟨row', hrow', -, -, -, rfl | ⟨-, hmoved⟩⟩ := hold row hrow
    · exact h.named row' hrow' uid home hu hh
    · rw [hu] at hmoved
      cases hmoved
  · intro op hop t ht row hrow hid
    obtain ⟨row', hrow', hid', hmail, -⟩ := hold row hrow
    rw [← hmail]
    change op ∈ (s.enqueue _).operations at hop
    rw [operations_enqueue, List.mem_append, List.mem_singleton] at hop
    rcases hop with hop | rfl
    · exact h.same op hop t ht row' hrow' (hid'.trans hid)
    · obtain ⟨row'', hrow'', rfl, -⟩ := hoffers t ht
      rw [h.row_eq hrow' hrow'' (hid'.trans hid)]
      rfl
  · change Chain _ id none (s.enqueue _).operations
    rw [operations_enqueue, chain_append]
    refine ⟨(h.chain id).imp fun _ _ _ _ _ _ ↦ hright, fun t ht hid ↦ ?_, trivial⟩
    obtain ⟨row, hrow, rfl, hmailbox, hhome⟩ := hoffers t ht
    rw [← hid, ← hmailbox]
    exact hright (h.right_toTarget hrow hhome)
  · intro id m hm row hrow hid
    change cursor id none (s.enqueue _).operations = some m at hm
    rw [operations_enqueue, cursor_append, Operation.leads] at hm
    obtain ⟨row', hrow', hid', -, hgone, hsame⟩ := hold row hrow
    have hconcerns : (Operation.move source target (found.map (·.1.toTarget))).concerns id ↔
        id ∈ found.map (·.1.id) := by
      simp [Operation.concerns, Operation.messages, Message.toTarget]
    by_cases hc : id ∈ found.map (·.1.id)
    · rw [if_pos (hconcerns.2 hc), Operation.target?, Option.some_or, Option.some_inj] at hm
      rw [← hm]
      exact hgone (hid ▸ hc)
    · rw [if_neg fun hop ↦ hc (hconcerns.1 hop)] at hm
      rcases hsame with rfl | ⟨hid'', -⟩
      · exact h.shown id m hm row' hrow' hid
      · exact absurd (hid ▸ hid'') hc

/-- An operation for each mailbox. -/
theorem enqueueGroups (h : s.Sound) {found : List Message} (hfound : found.Sublist s.rows)
    (hhome : ∀ row ∈ found, row.AtHome) {f : Nat × List Message → Operation}
    (hf : ∀ g, (f g).mailbox = g.1 ∧ (f g).messages = g.2.map (·.toTarget) ∧
      (f g).target? = none) :
    ((grouped (· ≤ ·) (·.mailbox) found).foldl (fun s g ↦ s.enqueue (f g)) s).Sound := by
  refine foldl_grouped (κ := Nat) (I := Sound) (i := fun row : Message ↦ row.id)
    (C := fun s row ↦ row ∈ s.rows ∧ row.AtHome) (fun s g hs _ hg ↦ ?_)
    (fun s g row hrow _ ↦ ?_) h ((hfound.map _).nodup h.key)
    fun row hrow ↦ ⟨hfound.subset hrow, hhome row hrow⟩
  · obtain ⟨hmailbox, hmessages, hstay⟩ := hf g
    refine hs.enqueue (fun t ht ↦ ?_) hstay
    rw [hmessages] at ht
    obtain ⟨row, hrow, rfl⟩ := List.mem_map.1 ht
    obtain ⟨hkey, hmem, hrowhome⟩ := hg row hrow
    exact ⟨row, hmem, rfl, hkey.trans hmailbox.symm, hrowhome⟩
  · exact hrow

theorem flag (h : s.Sound) {found : List Message} (hfound : found.Sublist s.rows)
    (hhome : ∀ row ∈ found, row.AtHome) (flag : Flag) (value : Bool) :
    (s.flag found flag value).Sound :=
  h.enqueueGroups hfound hhome fun _ ↦ ⟨rfl, rfl, rfl⟩

theorem destroy (h : s.Sound) {found : List Message} (hfound : found.Sublist s.rows)
    (hhome : ∀ row ∈ found, row.AtHome) : (s.destroy found).Sound := by
  have hall := h.enqueueGroups hfound hhome
    (f := fun g ↦ Operation.destroy g.1 (g.2.map (·.toTarget))) fun _ ↦ ⟨rfl, rfl, rfl⟩
  rw [Account.destroy]
  rw [← List.foldl_map (g := Account.enqueue), foldl_enqueue] at hall ⊢
  exact hall.shrink List.filter_sublist (Server.Later.refl _)

theorem relocate (h : s.Sound) {moves : List (Message × Nat)}
    (hmoves : (moves.map (·.1)).Sublist s.rows) (hhome : ∀ m ∈ moves, m.1.AtHome) :
    (s.relocate moves).Sound := by
  have hkey := (hmoves.map (·.id)).nodup h.key
  rw [List.map_map] at hkey
  rw [Account.relocate]
  refine foldl_grouped (I := Sound) (i := fun m : Message × Nat ↦ m.1.id)
    (C := fun s m ↦ m.1 ∈ s.rows ∧ m.1.AtHome) (fun s g hs _ hg ↦ ?_)
    (fun s g m hm hother ↦ ?_) h hkey fun m hm ↦ ⟨hmoves.subset (List.mem_map_of_mem hm), hhome m hm⟩
  · refine hs.moveGroup fun m hm ↦ ?_
    obtain ⟨hkey, hmem, hmhome⟩ := hg m hm
    exact ⟨hmem, congrArg Prod.fst hkey, hmhome⟩
  · refine ⟨mem_relocate_of_notMem hm.1 fun hid ↦ ?_, hm.2⟩
    obtain ⟨m', hm', heq⟩ := List.mem_map.1 hid
    exact (hother m' hm').2 heq

theorem act (h : s.Sound) {action : Action} (hc : Careful (.act action) s) :
    (s.act action).Sound := by
  rcases action with ⟨ids, flag, value⟩ | moves | ids
  · exact h.flag List.filter_sublist hc flag value
  · exact h.relocate (s.leaving_sublist moves) hc
  · exact h.destroy List.filter_sublist hc

/-! ### Attempts -/

theorem next (h : s.Sound) {op : Operation} {ops : List Operation}
    (hs : s.operations = op :: ops) (ht : t.Attempted op s) (hops : t.operations = ops)
    (hwait : ∀ id target, op.target? = some target → op.concerns id →
      (ops.any fun op ↦ op.waitsFor id) → t.HomedIn id target) : t.Sound where
  key := ht.key.nodup h.key
  named := ht.named h
  same := fun op' hop' ↦ ht.same h (by rw [hs]; exact List.mem_cons_of_mem op (hops ▸ hop'))
  chain := by
    intro id
    have hc := h.chain id
    rw [hs] at hc
    have h2 := (chain_cons.1 hc).2
    rw [hops]
    rw [Operation.leads] at h2
    by_cases hop : op.concerns id
    · rw [if_pos hop] at h2
      rcases htarget : op.target? with - | target
      · rw [htarget] at h2
        refine h2.imp fun op' _ x _ hid c ↦ Right.imp (fun _ _ ↦ ht.names _ _ _) ?_
        rw [hid]
        exact ht.homedIn (by rw [htarget]; simp)
      · rw [htarget] at h2
        exact h2.settled (hwait id target htarget hop) ht.names
    · rw [if_neg hop] at h2
      refine h2.imp fun op' _ x _ hid c ↦ Right.imp (fun _ _ ↦ ht.names _ _ _) ?_
      rw [hid]
      exact ht.homedIn fun hop' ↦ absurd hop'.1 hop
  shown := by
    intro id m hm
    refine ht.shown fun row hrow hid ↦ h.shown id m ?_ row hrow hid
    rw [hs, ← hops]
    change cursor id (op.leads id none) t.operations = some m
    exact cursor_some hm fun hc ↦ nomatch hc

/-- An operation that is tried again names UIDs, where it moves messages. -/
theorem again (h : s.Sound) {op : Operation} {ops : List Operation}
    (hs : s.operations = op :: ops) (ht : t.Attempted op s) (hops : t.operations = op :: ops)
    (hknown : op.target?.isSome → ∀ x ∈ op.messages, x.remote.isMoved = false) : t.Sound where
  key := ht.key.nodup h.key
  named := ht.named h
  same := fun op' hop' ↦ ht.same h (by rw [hs]; exact hops ▸ hop')
  chain := by
    intro id
    have hc := h.chain id
    rw [hs] at hc
    rw [hops]
    by_cases hmoves : op.concerns id ∧ op.target?.isSome
    · obtain ⟨target, htarget⟩ := Option.isSome_iff_exists.1 hmoves.2
      refine chain_cons.2 ⟨fun x hx hid ↦ ?_, ?_⟩
      · have hr := hc.1 x hx hid
        have hx' := hknown hmoves.2 x hx
        refine ⟨fun uid hu ↦ ht.names _ _ _ (hr.known uid hu), hr.follows, fun hm ↦ ?_⟩
        rw [hx'] at hm
        cases hm
      · have h2 := (chain_cons.1 hc).2
        rw [Operation.leads, if_pos hmoves.1, htarget] at h2 ⊢
        exact h2.imp_some ht.names
    · refine hc.imp fun op' _ x _ hid c ↦ Right.imp (fun _ _ ↦ ht.names _ _ _) ?_
      rw [hid]
      exact ht.homedIn hmoves
  shown := by
    intro id m hm
    refine ht.shown fun row hrow hid ↦ h.shown id m ?_ row hrow hid
    rw [hs, ← hops]
    exact hm

/-- The UIDs the first operation finds name the messages it means. -/
theorem resolved (h : s.Sound) {op : Operation} {ops : List Operation}
    (hs : s.operations = op :: ops) {x : Target} {uid : Nat}
    (hx : (x, uid) ∈ resolve s.rows op.messages) :
    x ∈ op.messages ∧ s.server.Names op.mailbox uid x.mail := by
  have hc := h.chain x.id
  rw [hs] at hc
  obtain ⟨hmem, hu | ⟨hmoved, row, hrow, hid, hu⟩⟩ := mem_resolve hx
  · exact ⟨hmem, (hc.1 x hmem rfl).known uid hu⟩
  · have hhome := (hc.1 x hmem rfl).homed hmoved rfl row hrow hid uid hu
    have hmail := h.same op (by rw [hs]; exact List.mem_cons_self) x hmem row hrow hid
    exact ⟨hmem, hmail ▸ h.named row hrow uid op.mailbox hu hhome⟩

/-- **What the first operation sends names what was meant.** -/
theorem commands (h : s.Sound) {op : Operation} {ops : List Operation}
    (hs : s.operations = op :: ops) : ∀ c ∈ s.commands op, ∀ x ∈ c.named, x = c.meant := by
  intro c hc
  obtain ⟨⟨x, uid⟩, hx, rfl⟩ := List.mem_map.1 hc
  exact (h.resolved hs hx).2.named

theorem answer_names {source target : Nat} {messages : List Target} {told : Bool}
    {uid new mail : Nat} (ha : s.answer (.move source target messages) told uid = some new)
    (hn : s.server.Names source uid mail) :
    (s.server.moveMessages source ((resolve s.rows messages).map (·.2)) target).Names target new
      mail := by
  rw [answer] at ha
  by_cases ht : told
  · rw [if_pos ht] at ha
    obtain ⟨⟨uid', new'⟩, hfind, rfl⟩ := Option.map_eq_some_iff.1 ha
    obtain rfl : uid' = uid := by simpa using List.find?_some hfind
    obtain ⟨⟨e, copy⟩, he, heq⟩ := List.mem_map.1 (List.mem_of_find?_eq_some hfind)
    obtain ⟨rfl, rfl⟩ := Prod.mk.inj heq
    exact Server.names_moveMessages he hn
  · rw [if_neg ht] at ha
    cases ha

theorem attempted_apply (h : s.Sound) {op : Operation} {ops : List Operation}
    (hs : s.operations = op :: ops) (told : Bool) (settled : Nat) :
    (s.apply op told settled).Attempted op s := by
  have hsame : ∀ {t : Account}, t.rows = s.rows → s.server.Later t.server → t.Attempted op s :=
    fun hrows hserver ↦ ⟨fun _ _ _ ↦ hserver.names, hrows ▸ List.Sublist.refl _,
      fun row hrow ↦ ⟨row, hrows ▸ hrow, rfl, rfl, rfl, .inl rfl⟩⟩
  rw [apply.eq_def]
  by_cases hnil : resolve s.rows op.messages = []
  · rw [if_pos hnil]
    exact hsame rfl (Server.Later.refl _)
  rw [if_neg hnil]
  rcases op with ⟨mailbox, messages, flag, value⟩ | ⟨source, target, messages⟩ |
    ⟨mailbox, messages⟩
  · exact hsame rfl (s.server.later_storeFlag mailbox _ flag value)
  · refine ⟨fun _ _ _ ↦ (Server.later_moveMessages _ _ _).names, settleAll_key, ?_⟩
    intro row hrow
    obtain ⟨row', hrow', hid, hmailbox, hmail, rfl | ⟨⟨x, uid⟩, hp, hpid, new, ha, hu, hhome⟩⟩ :=
      mem_settleAll hrow
    · exact ⟨row', hrow', hid, hmailbox, hmail, .inl rfl⟩
    obtain ⟨hmem, hnames⟩ := h.resolved hs (List.mem_of_mem_take hp)
    refine ⟨row', hrow', hid, hmailbox, hmail, .inr ⟨?_, target, rfl, hhome, fun uid' hu' ↦ ?_⟩⟩
    · exact List.any_eq_true.2 ⟨x, hmem, decide_eq_true hpid⟩
    · obtain rfl := Remote.uid.inj (hu.symm.trans hu')
      rw [← hmail, h.same _ (by rw [hs]; exact List.mem_cons_self) x hmem row' hrow'
        (hid.trans hpid.symm)]
      exact answer_names ha hnames
  · exact hsame rfl (s.server.later_expunge mailbox _)

theorem congr (h : s.Sound) (hrows : t.rows = s.rows) (hserver : t.server = s.server)
    (hops : t.operations = s.operations) : t.Sound := by
  have hright : ∀ {c m x}, s.Right c m x → t.Right c m x := by
    intro c m x hr
    refine ⟨fun uid hu ↦ hserver ▸ hr.known uid hu, hr.follows, fun hm hc row hrow ↦ ?_⟩
    exact hr.homed hm hc row (hrows ▸ hrow)
  refine ⟨hrows ▸ h.key, ?_, ?_, fun id ↦ ?_, ?_⟩
  · rw [hrows, hserver]
    exact h.named
  · rw [hrows, hops]
    exact h.same
  · rw [hops]
    exact (h.chain id).imp fun _ _ _ _ _ _ ↦ hright
  · rw [hrows, hops]
    exact h.shown

/-- A message that was waited for is at home once its move has run. -/
theorem homedIn_apply (h : s.Sound) {op : Operation} {target : Nat} (htarget : op.target? = some target)
    {told : Bool} (hconcerns : op.concerns id)
    (htakes : ∀ row ∈ s.rows, row.id = id → row.remote.isMoved ∨
      ∀ p ∈ resolve s.rows op.messages, p.1.id = id → s.takes op told row p.2) :
    (s.apply op told (resolve s.rows op.messages).length).HomedIn id target := by
  obtain ⟨x, hx, hxid⟩ := List.any_eq_true.1 hconcerns
  have hxid := of_decide_eq_true hxid
  rcases op with ⟨mailbox, messages, flag, value⟩ | ⟨source, target', messages⟩ |
    ⟨mailbox, messages⟩
  · cases htarget
  · obtain rfl : target' = target := Option.some.inj htarget
    intro row hrow hid uid hu
    rw [apply.eq_def] at hrow
    by_cases hnil : resolve s.rows (Operation.move source target' messages).messages = []
    · rw [if_pos hnil] at hrow
      obtain ⟨uid', hmem⟩ := exists_resolve h.key hrow hu hx (hxid.trans hid.symm)
      rw [hnil] at hmem
      cases hmem
    · rw [if_neg hnil] at hrow
      simp only [List.take_length] at hrow
      obtain ⟨row', hrow', hid', -, -, hsame⟩ := mem_settleAll hrow
      rcases htakes row' hrow' (hid'.trans hid) with hmoved | htakes
      · rcases hsame with rfl | ⟨-, -, -, -, -, -, hhome⟩
        · rw [hu] at hmoved
          cases hmoved
        · exact hhome
      · refine home_of_settleAll h.key hrow' (fun p hp hpid ↦ ?_) ?_ hrow hid'.symm
        · exact told_of_takes (htakes p hp (hpid.trans (hid'.trans hid)))
        · rcases hsame with rfl | ⟨p, hp, hpid, -⟩
          · obtain ⟨uid', hmem⟩ := exists_resolve h.key hrow' hu hx (hxid.trans hid.symm)
            exact .inl ⟨_, hmem, hxid.trans hid.symm⟩
          · exact .inl ⟨p, hp, hpid.trans hid'.symm⟩
  · cases htarget

theorem attempt (h : s.Sound) {outcome : Outcome} (hc : Careful (.attempt outcome) s) :
    (s.attempt outcome).Sound := by
  rw [Account.attempt]
  rcases hq : s.queue with - | ⟨item, rest⟩
  · exact h
  have hs : s.operations = item.operation :: rest.map (·.operation) := by
    rw [operations, hq, List.map_cons]
  have hc' := hc item (by rw [hq]; rfl)
  rw [hq, List.tail_cons] at hc'
  have hwaits : ∀ id, ((rest.map (·.operation)).any fun op ↦ op.waitsFor id) = waits rest id := by
    intro id
    rw [waits, List.any_map]
    rfl
  rcases outcome with told | reached | ⟨told, settled⟩
  · have ha := h.attempted_apply hs told (resolve s.rows item.operation.messages).length
    refine h.next hs ⟨ha.names, ha.key, ha.rows⟩ rfl fun id target htarget hconcerns hw ↦ ?_
    obtain ⟨x, hx, hxid⟩ := List.any_eq_true.1 hconcerns
    have hxid := of_decide_eq_true hxid
    have htakes := hc' (by rw [htarget]; rfl) x hx (by rw [hxid, ← hwaits]; exact hw)
    rw [hxid] at htakes
    exact h.homedIn_apply htarget hconcerns htakes
  · have ht : ∀ {queue sent}, ({ s with queue, sent } : Account).Attempted item.operation s :=
      ⟨fun _ _ _ ↦ id, List.Sublist.refl _, fun row hrow ↦ ⟨row, hrow, rfl, rfl, rfl, .inl rfl⟩⟩
    by_cases hgiveUp : item.attempts + 1 ≥ giveUpAfter
    · refine h.next hs ht (congrArg _ (if_pos hgiveUp)) fun id target htarget hconcerns hw ↦ ?_
      obtain ⟨x, hx, hxid⟩ := List.any_eq_true.1 hconcerns
      have hxid := of_decide_eq_true hxid
      intro row hrow hid uid hu
      have hmoved := hc' (by rw [htarget]; rfl) hgiveUp x hx (by rw [hxid, ← hwaits]; exact hw) row
        hrow (hid.trans hxid.symm)
      rw [hu] at hmoved
      cases hmoved
    · refine h.congr rfl rfl (hs ▸ congrArg _ (if_neg hgiveUp))
  · have ha := h.attempted_apply hs told settled
    refine h.again hs ⟨ha.names, ha.key, ha.rows⟩ ?_ hc'
    rw [← hs, operations, operations]
    exact congrArg _ (apply_queue _ _ _)

/-! ### What happens elsewhere -/

theorem insert (h : s.Sound) {mailbox uid mail : Nat} (hn : s.server.Names mailbox uid mail)
    (hfresh : ∀ op ∈ s.operations, ∀ x ∈ op.messages, x.id ≠ nextMessage s.rows) :
    ({ s with rows := insertMessage s.rows mailbox uid mail } : Account).Sound where
  key := insertMessage_key h.key
  named := by
    intro row hrow uid' home hu hh
    rcases mem_insertMessage hrow with hrow | rfl
    · exact h.named row hrow uid' home hu hh
    · obtain rfl := Remote.uid.inj hu
      obtain rfl := Option.some.inj hh
      exact hn
  same := by
    intro op hop x hx row hrow hid
    rcases mem_insertMessage hrow with hrow | rfl
    · exact h.same op hop x hx row hrow hid
    · exact absurd hid.symm (hfresh op hop x hx)
  chain := by
    refine fun id ↦ (h.chain id).imp fun op hop x hx hid c hr ↦ ?_
    refine ⟨hr.known, hr.follows, fun hm hc row hrow hrid uid' hu ↦ ?_⟩
    rcases mem_insertMessage hrow with hrow | rfl
    · exact hr.homed hm hc row hrow hrid uid' hu
    · exact absurd hrid.symm (hfresh op hop x hx)
  shown := by
    intro id m hm row hrow hid
    rcases mem_insertMessage hrow with hrow | rfl
    · exact h.shown id m hm row hrow hid
    · obtain ⟨op, hop, hconcerns⟩ := exists_concerns hm
      obtain ⟨x, hx, hxid⟩ := List.any_eq_true.1 hconcerns
      exact absurd ((of_decide_eq_true hxid).trans hid.symm) (hfresh op hop x hx)

theorem renumber (h : s.Sound) {mailbox : Nat} {uid : Nat → Nat}
    (hc : Careful (.renumber mailbox uid) s) :
    (Account.step (.renumber mailbox uid) s).Sound := by
  have hold : ∀ row ∈ (Account.step (.renumber mailbox uid) s).rows, ∃ row' ∈ s.rows,
      row'.id = row.id ∧ row'.mailbox = row.mailbox ∧ row'.mail = row.mail ∧
        row'.remote = row.remote ∧ row.home ≠ some mailbox ∧
          (row'.home ≠ some mailbox → row.home = row'.home) ∧
            ∀ m, row.home = some m → row'.home = some m := by
    intro row hrow
    obtain ⟨row', hrow', rfl⟩ := List.mem_map.1 hrow
    refine ⟨row', hrow', ?_⟩
    by_cases hhome : row'.home = some mailbox
    · rw [if_pos hhome]
      exact ⟨rfl, rfl, rfl, rfl, nofun, fun hne ↦ absurd hhome hne, nofun⟩
    · rw [if_neg hhome]
      exact ⟨rfl, rfl, rfl, rfl, hhome, fun _ ↦ rfl, fun _ hm ↦ hm⟩
  have hclear : ∀ op ∈ s.operations, ∀ x ∈ op.messages,
      if x.remote.isMoved then ∀ row ∈ s.rows, row.id = x.id → row.home ≠ some mailbox
      else op.mailbox ≠ mailbox := by
    intro op hop x hx
    obtain ⟨item, hitem, rfl⟩ := List.mem_map.1 hop
    exact hc item hitem x hx
  refine ⟨?_, ?_, ?_, fun id ↦ (h.chain id).imp fun op hop x hx hid c hr ↦ ⟨?_, hr.follows, ?_⟩, ?_⟩
  · have hids : (Account.step (.renumber mailbox uid) s).rows.map (·.id) = s.rows.map (·.id) := by
      rw [Account.step, List.map_map]
      refine List.map_congr_left fun row _ ↦ ?_
      by_cases hhome : row.home = some mailbox
      · rw [Function.comp_apply, if_pos hhome]
      · rw [Function.comp_apply, if_neg hhome]
    exact hids ▸ h.key
  · intro row hrow uid' home hu hh
    obtain ⟨row', hrow', -, -, hmail, hremote, hne, -, hhome⟩ := hold row hrow
    rw [← hmail]
    refine Server.names_renumber (fun heq ↦ hne (heq ▸ hh)) ?_
    exact h.named row' hrow' uid' home (hremote.trans hu) (hhome home hh)
  · intro op hop x hx row hrow hid
    obtain ⟨row', hrow', hid', -, hmail, -⟩ := hold row hrow
    rw [← hmail]
    exact h.same op hop x hx row' hrow' (hid'.trans hid)
  · intro uid' hu
    have hx' := hclear op hop x hx
    rw [hu, if_neg (by simp [Remote.isMoved])] at hx'
    exact Server.names_renumber hx' (hr.known uid' hu)
  · intro hmoved hnone row hrow hrid uid' hu
    obtain ⟨row', hrow', hid', -, -, hremote, -, hkept, -⟩ := hold row hrow
    have hx' := hclear op hop x hx
    rw [if_pos hmoved] at hx'
    rw [hkept (hx' row' hrow' (hid'.trans hrid))]
    exact hr.homed hmoved hnone row' hrow' (hid'.trans hrid) uid' (hremote.trans hu)
  · intro id m hm row hrow hid
    obtain ⟨row', hrow', hid', hmailbox, -⟩ := hold row hrow
    rw [← hmailbox]
    exact h.shown id m hm row' hrow' (hid'.trans hid)

/-- **What a careful event keeps.** -/
theorem step (h : s.Sound) {e : AccountStep} (hc : Careful e s) : (step e s).Sound := by
  rcases e with action | outcome | ⟨mailbox, mail, marks⟩ | ⟨mailbox, uids⟩ |
    ⟨mailbox, uids, flag, value⟩ | ⟨mailbox, uid⟩ | ⟨mailbox, uid, mail⟩ | ⟨mailbox, uids⟩ | mailbox
  · exact h.act hc
  · exact h.attempt hc
  · exact h.shrink (List.Sublist.refl _) (Server.later_arrive _ _ _)
  · exact h.shrink (List.Sublist.refl _) (Server.later_purge _)
  · exact h.shrink (List.Sublist.refl _) (s.server.later_storeFlag _ _ _ _)
  · exact h.renumber hc
  · rw [Account.step]
    by_cases hn : s.server.Names mailbox uid mail
    · rw [if_pos hn]
      refine h.insert hn fun op hop x hx ↦ ?_
      obtain ⟨item, hitem, rfl⟩ := List.mem_map.1 hop
      exact hc item hitem x hx
    · rw [if_neg hn]
      exact h
  · exact h.shrink List.filter_sublist (Server.Later.refl _)
  · exact h.shrink List.filter_sublist (Server.Later.refl _)

end Sound

/-! ## Whole runs -/

theorem foldl_keeps {β γ : Type} {f : Account → γ → Account} (get : Account → β)
    (hf : ∀ s g, get (f s g) = get s) (l : List γ) : get (l.foldl f s) = get s := by
  induction l generalizing s with
  | nil => rfl
  | cons g l ih => exact ih.trans (hf s g)

/-- An action does nothing on the server yet. -/
theorem act_server (action : Action) :
    ((s.act action).server, (s.act action).sent) = (s.server, s.sent) := by
  rcases action with ⟨ids, flag, value⟩ | moves | ids
  all_goals
    refine Eq.trans (foldl_keeps (fun s ↦ (s.server, s.sent)) ?_ _) rfl
    exact fun _ _ ↦ rfl

/-- What an event sends is right, if the account is sound. -/
theorem RightMessages.step (h : s.RightMessages) (hs : s.Sound) (e : AccountStep) :
    (step e s).RightMessages := by
  rcases e with action | outcome | - | - | - | - | ⟨mailbox, uid, mail⟩ | - | - <;> try exact h
  · intro c hc
    rw [Account.step, (Prod.mk.inj (act_server action)).2] at hc
    exact h c hc
  · rw [Account.step, attempt]
    rcases hq : s.queue with - | ⟨item, rest⟩
    · exact h
    have hops : s.operations = item.operation :: rest.map (·.operation) := by
      rw [operations, hq, List.map_cons]
    have hall : ∀ c ∈ s.commands item.operation ++ s.sent, ∀ x ∈ c.named, x = c.meant := by
      intro c hc
      rcases List.mem_append.1 hc with hc | hc
      · exact hs.commands hops c hc
      · exact h c hc
    rcases outcome with told | reached | ⟨told, settled⟩
    · exact hall
    · rcases reached with - | -
      · exact h
      · exact hall
    · exact hall
  · rw [Account.step]
    by_cases hn : s.server.Names mailbox uid mail
    · rw [if_pos hn]
      exact h
    · rw [if_neg hn]
      exact h

/-- An account in step with the server: nothing is queued, and each row has the UID of its message
in the mailbox it stands in. -/
structure Fresh (s : Account) : Prop where
  key : (s.rows.map (·.id)).Nodup
  queue : s.queue = []
  sent : s.sent = []
  rows : ∀ row ∈ s.rows, ∃ uid, row.remote = .uid uid ∧ row.home = some row.mailbox ∧
    s.server.Names row.mailbox uid row.mail

theorem Fresh.sound (h : s.Fresh) : s.Sound := by
  have hops : s.operations = [] := by rw [operations, h.queue, List.map_nil]
  refine ⟨h.key, ?_, ?_, ?_, ?_⟩
  · intro row hrow uid home hu hh
    obtain ⟨uid', hu', hhome, hn⟩ := h.rows row hrow
    obtain rfl := Remote.uid.inj (hu.symm.trans hu')
    obtain rfl := Option.some.inj (hh.symm.trans hhome)
    exact hn
  · rw [hops]
    exact nofun
  · rw [hops]
    exact fun _ ↦ trivial
  · rw [hops]
    exact nofun

/-- Three mailboxes: a message in the first, and one in the third that is not stored yet. -/
def threeMailboxes : Account where
  rows := [⟨1, 1, .uid 5, 100, some 1⟩]
  queue := []
  server :=
    { entries := [⟨1, 5, 100, ⟨false, false, false, false⟩⟩, ⟨3, 1, 200, ⟨true, false, false, false⟩⟩]
      uidNext := fun m ↦ if m = 1 then 6 else if m = 3 then 2 else 1
      moves := true
      uidplus := true
      fresh := by decide }
  sent := []

theorem fresh_threeMailboxes : threeMailboxes.Fresh where
  key := by decide
  queue := rfl
  sent := rfl
  rows := by
    intro row hrow
    obtain rfl := List.mem_singleton.1 hrow
    exact ⟨5, rfl, rfl, by decide⟩

/-- The message goes to the second mailbox and on to the third, is marked there before either move
has run, and is deleted once everything has. -/
def patientRun : List AccountStep :=
  [.act (.relocate [⟨1, 2⟩]), .act (.relocate [⟨1, 3⟩]), .act (.flag [1] .seen true),
    .attempt (.done true), .attempt (.failed true), .attempt (.done true), .attempt (.done true),
    .act (.destroy [1]), .attempt (.done true)]

/-- The message is deleted while the first of its moves has run and the second has not: its row
stands in the third mailbox with the UID it has in the second. -/
def hastyRun : List AccountStep :=
  [.act (.relocate [⟨1, 2⟩]), .act (.relocate [⟨1, 3⟩]), .attempt (.done true),
    .act (.destroy [1]), .attempt (.done true), .attempt (.done true)]

end Account

end Mailman

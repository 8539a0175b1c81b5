import Luft.Lib.Runs
import Mathlib.Data.List.Basic
import Mathlib.Data.List.Pairwise
import Mathlib.Data.List.Sort

/-!
# The outbox

A message waits in the outbox until it is due.  The scheduler reads what is due and posts a job for
each message that has none yet; the worker of the account hands the message to the mail server,
keeps a copy in the Sent mailbox where the server does not do that itself, and settles: the row goes
when both went well, and waits for another attempt when either did not.  The person takes a message
back as long as it is not due.

`Outbox` is the table with the scheduler and the workers, and `Outbox.step` one event of either, so
that they interleave in any order.  What a step cannot know (the clock, whether the store and the
server do what they are asked) comes with it.
-/

set_option autoImplicit false

namespace Mailman

/-! ## The table -/

/-- A message on its way; `serial` tells apart two messages that had the same id one after the
other. -/
structure Outgoing where
  serial : Nat
  id : Int
  account : Int
  raw : List UInt8
  sender : String
  recipients : List String
  remindAt : Option Int
  deriving DecidableEq, Repr

/-- A row of the outbox. -/
structure Row (D : Type) where
  outgoing : Outgoing
  draft : D
  sendAt : Int
  error : Option String
  deriving DecidableEq, Repr

def retrySeconds : Int := 60

section Table

variable {D : Type}

/-- The id a new row gets: one more than the largest. -/
def nextId (rows : List (Row D)) : Int :=
  rows.foldr (fun row most ↦ max row.outgoing.id most) 0 + 1

/-- Queue a message; its id is chosen by the table. -/
def queueOutgoing (rows : List (Row D)) (outgoing : Outgoing) (draft : D) (sendAt : Int) :
    List (Row D) :=
  rows ++ [⟨{ outgoing with id := nextId rows }, draft, sendAt, none⟩]

/-- What is due, in the order it became so. -/
def dueOutgoing (rows : List (Row D)) (now : Int) : List Outgoing :=
  ((rows.filter (·.sendAt ≤ now)).insertionSort (·.sendAt ≤ ·.sendAt)).map (·.outgoing)

/-- The row a cancellation takes. -/
def cancellable (rows : List (Row D)) (id now : Int) : Option (Row D) :=
  rows.find? fun row ↦ row.outgoing.id = id ∧ row.sendAt > now

/-- Take back a message that is not due, and give back its draft. -/
def cancelOutgoing (rows : List (Row D)) (id now : Int) : Option D × List (Row D) :=
  ((cancellable rows id now).map (·.draft),
    rows.filter fun row ↦ ¬(row.outgoing.id = id ∧ row.sendAt > now))

def finishOutgoing (rows : List (Row D)) (id : Int) : List (Row D) :=
  rows.filter (·.outgoing.id ≠ id)

/-- Wait for another attempt. -/
def retryOutgoing (rows : List (Row D)) (id : Int) (error : String) (now : Int) : List (Row D) :=
  rows.map fun row ↦
    if row.outgoing.id = id then { row with error := some error, sendAt := now + retrySeconds }
    else row

theorem mem_dueOutgoing {rows : List (Row D)} {now : Int} {o : Outgoing}
    (h : o ∈ dueOutgoing rows now) : ∃ row ∈ rows, row.outgoing = o := by
  rw [dueOutgoing, List.mem_map] at h
  obtain ⟨row, hrow, rfl⟩ := h
  exact ⟨row, (List.mem_filter.1 ((List.mem_insertionSort _).1 hrow)).1, rfl⟩

theorem mem_queueOutgoing {rows : List (Row D)} {outgoing : Outgoing} {draft : D} {sendAt : Int}
    {row : Row D} : row ∈ queueOutgoing rows outgoing draft sendAt ↔
      row ∈ rows ∨ row = ⟨{ outgoing with id := nextId rows }, draft, sendAt, none⟩ := by
  rw [queueOutgoing, List.mem_append, List.mem_singleton]

theorem mem_finishOutgoing {rows : List (Row D)} {id : Int} {row : Row D} :
    row ∈ finishOutgoing rows id ↔ row ∈ rows ∧ row.outgoing.id ≠ id := by
  simp [finishOutgoing]

theorem finishOutgoing_sublist (rows : List (Row D)) (id : Int) :
    (finishOutgoing rows id).Sublist rows := List.filter_sublist

/-- Another attempt changes no message. -/
theorem retryOutgoing_outgoing (rows : List (Row D)) (id : Int) (error : String) (now : Int) :
    (retryOutgoing rows id error now).map (·.outgoing) = rows.map (·.outgoing) := by
  rw [retryOutgoing, List.map_map]
  refine List.map_congr_left fun row _ ↦ ?_
  by_cases hid : row.outgoing.id = id
  · rw [Function.comp_apply, if_pos hid]
  · rw [Function.comp_apply, if_neg hid]

theorem mem_of_cancellable {rows : List (Row D)} {id now : Int} {row : Row D}
    (h : cancellable rows id now = some row) :
    row ∈ rows ∧ row.outgoing.id = id ∧ row.sendAt > now := by
  have := List.find?_some h
  simp only [decide_eq_true_eq] at this
  exact ⟨List.mem_of_find?_eq_some h, this.1, this.2⟩

theorem mem_cancelOutgoing {rows : List (Row D)} {id now : Int} {row : Row D} :
    row ∈ (cancelOutgoing rows id now).2 ↔
      row ∈ rows ∧ ¬(row.outgoing.id = id ∧ row.sendAt > now) := by
  rw [cancelOutgoing, List.mem_filter, decide_eq_true_eq]

theorem cancelOutgoing_sublist (rows : List (Row D)) (id now : Int) :
    (cancelOutgoing rows id now).2.Sublist rows := List.filter_sublist

theorem cancelOutgoing_draft {rows : List (Row D)} {id now : Int} :
    (cancelOutgoing rows id now).1 = (cancellable rows id now).map (·.draft) := rfl

/-- The id of a new row is not taken. -/
theorem lt_nextId {rows : List (Row D)} {row : Row D} (h : row ∈ rows) :
    row.outgoing.id < nextId rows := by
  rw [nextId, Int.lt_add_one_iff]
  induction rows with
  | nil => cases h
  | cons first rows ih =>
    rcases List.mem_cons.1 h with rfl | h
    · exact le_max_left _ _
    · exact (ih h).trans (le_max_right _ _)

end Table

/-! ## Jobs -/

instance Sent.decidableEq : DecidableEq (Except String Unit)
  | .ok (), .ok () => .isTrue rfl
  | .error e, .error e' => decidable_of_iff (e = e') (by simp)
  | .ok _, .error _ => .isFalse (by simp)
  | .error _, .ok _ => .isFalse (by simp)

/-- How far the worker is with a message. -/
inductive Stage
  /-- Waits in the queue of the worker. -/
  | posted
  /-- Goes to the mail server. -/
  | sending
  /-- The server took it; a copy goes to the Sent mailbox. -/
  | keeping
  /-- What came of it is about to be stored. -/
  | settling (sent : Except String Unit)
  /-- About to be forgotten. -/
  | releasing
  deriving DecidableEq

/-- The server has taken the message and the outbox does not know it yet. -/
def Stage.delivered : Stage → Bool
  | .keeping | .settling (.ok ()) => true
  | _ => false

structure Job where
  outgoing : Outgoing
  stage : Stage
  deriving DecidableEq

/-- What came of handing a message to the mail server. -/
inductive Answer
  /-- It was not handed over: no connection, or an address that is none. -/
  | unreached (error : String)
  /-- It was handed over and refused, or no answer came. -/
  | refused (error : String)
  /-- The server answered that it takes the message. -/
  | accepted

/-- What an outsider sees of a message, by its serial. -/
inductive Event
  | handed (serial : Nat) (accepted : Bool)
  | cancelled (serial : Nat)
  deriving DecidableEq, Repr

/-! ## The outbox with its scheduler and its workers -/

/-- `due` is what the scheduler has read and not posted yet; `sending` are the ids that have a job;
`running` are the accounts with a worker.  `trace` is what happened, the latest first. -/
structure Outbox (D : Type) where
  rows : List (Row D)
  due : List Outgoing
  sending : List Int
  jobs : List Job
  running : List Int
  queued : Nat
  trace : List Event

inductive Step (D : Type)
  /-- The person sends a message. -/
  | queue (outgoing : Outgoing) (draft : D) (sendAt : Int)
  /-- The scheduler reads what is due. -/
  | read (now : Int) (stored : Bool)
  /-- The scheduler goes on to the next message it read. -/
  | post
  /-- The worker takes up the job of a message. -/
  | take (id : Int)
  | hand (id : Int) (answer : Answer)
  | keep (id : Int) (copied : Except String Unit)
  | settle (id : Int) (now : Int) (stored : Bool)
  | release (id : Int)
  /-- The person takes a message back. -/
  | cancel (id : Int) (now : Int) (stored : Bool)
  /-- A worker starts for an account, in place of the one it may have had. -/
  | add (account : Int)
  /-- An account goes, with its worker and its messages. -/
  | remove (account : Int)
  /-- A job is lost with the queue it waited in. -/
  | lose (id : Int)
  /-- The program ends and is started again. -/
  | relaunch

namespace Outbox

variable {D : Type} (s : Outbox D)

/-- Nothing queued, nothing under way. -/
def empty : Outbox D := ⟨[], [], [], [], [], 0, []⟩

/-- The job of a message. -/
def job (id : Int) : Option Job := s.jobs.find? (·.outgoing.id = id)

/-- The job of a message goes on to another stage. -/
def advance (job : Job) (stage : Stage) : Outbox D :=
  { s with jobs := { job with stage } :: s.jobs.filter (·.outgoing.id ≠ job.outgoing.id) }

def drop (id : Int) : Outbox D := { s with jobs := s.jobs.filter (·.outgoing.id ≠ id) }

def log (event : Event) : Outbox D := { s with trace := event :: s.trace }

/-- The turn of one message that was read: it is posted unless it has a job already. -/
def sendDue (outgoing : Outgoing) : Outbox D :=
  if outgoing.id ∈ s.sending then s
  else
    { s with
      sending := outgoing.id :: s.sending
      jobs := if outgoing.account ∈ s.running then ⟨outgoing, .posted⟩ :: s.jobs else s.jobs }

/-- Hand the message over.  `savesSentItself` are the accounts whose server keeps the copy. -/
def hand (savesSentItself : Int → Bool) (job : Job) : Answer → Outbox D
  | .unreached error => s.advance job (.settling (.error error))
  | .refused error =>
    (s.log (.handed job.outgoing.serial false)).advance job (.settling (.error error))
  | .accepted =>
    (s.log (.handed job.outgoing.serial true)).advance job
      (if savesSentItself job.outgoing.account then .settling (.ok ()) else .keeping)

/-- Store what came of it.  Where the store fails the row stays as it is. -/
def settle (job : Job) (sent : Except String Unit) (now : Int) (stored : Bool) : Outbox D :=
  { s with
    rows :=
      if stored then
        match sent with
        | .ok () => finishOutgoing s.rows job.outgoing.id
        | .error error => retryOutgoing s.rows job.outgoing.id error now
      else s.rows }.advance job .releasing

def cancel (id now : Int) : Outbox D :=
  { s with
    rows := (cancelOutgoing s.rows id now).2
    trace := ((cancellable s.rows id now).map fun row ↦
      Event.cancelled row.outgoing.serial).toList ++ s.trace }

/-- One event of the scheduler, of a worker or of the person. -/
def step (savesSentItself : Int → Bool) (e : Step D) (s : Outbox D) : Outbox D :=
  match e with
  | .queue outgoing draft sendAt =>
    { s with
      rows := queueOutgoing s.rows { outgoing with serial := s.queued } draft sendAt
      queued := s.queued + 1 }
  | .read now stored =>
    if s.due = [] ∧ stored then { s with due := dueOutgoing s.rows now } else s
  | .post =>
    match s.due with
    | [] => s
    | outgoing :: due => { s with due }.sendDue outgoing
  | .take id =>
    match s.job id with
    | some ⟨outgoing, .posted⟩ => s.advance ⟨outgoing, .posted⟩ .sending
    | _ => s
  | .hand id answer =>
    match s.job id with
    | some ⟨outgoing, .sending⟩ => s.hand savesSentItself ⟨outgoing, .sending⟩ answer
    | _ => s
  | .keep id copied =>
    match s.job id with
    | some ⟨outgoing, .keeping⟩ => s.advance ⟨outgoing, .keeping⟩ (.settling copied)
    | _ => s
  | .settle id now stored =>
    match s.job id with
    | some ⟨outgoing, .settling sent⟩ => s.settle ⟨outgoing, .settling sent⟩ sent now stored
    | _ => s
  | .release id =>
    match s.job id with
    | some ⟨_, .releasing⟩ => { s.drop id with sending := s.sending.filter (· ≠ id) }
    | _ => s
  | .cancel id now stored => if stored then s.cancel id now else s
  | .add account => { s with running := account :: s.running.filter (· ≠ account) }
  | .remove account =>
    { s with
      rows := s.rows.filter (·.outgoing.account ≠ account)
      running := s.running.filter (· ≠ account) }
  | .lose id =>
    match s.job id with
    | some ⟨_, .posted⟩ => s.drop id
    | _ => s
  | .relaunch => { s with due := [], sending := [], jobs := [] }

/-! ### What the small steps do to the jobs -/

variable {s}

theorem mem_jobs_advance {job j : Job} {stage : Stage} :
    j ∈ (s.advance job stage).jobs ↔
      j = { job with stage } ∨ j ∈ s.jobs ∧ j.outgoing.id ≠ job.outgoing.id := by
  simp [advance]

theorem self_mem_jobs_advance (job : Job) (stage : Stage) :
    { job with stage } ∈ (s.advance job stage).jobs := mem_jobs_advance.2 (.inl rfl)

theorem mem_jobs_drop {id : Int} {j : Job} :
    j ∈ (s.drop id).jobs ↔ j ∈ s.jobs ∧ j.outgoing.id ≠ id := by
  simp [drop]

theorem mem_jobs_of_job {id : Int} {j : Job} (h : s.job id = some j) :
    j ∈ s.jobs ∧ j.outgoing.id = id :=
  ⟨List.mem_of_find?_eq_some h, by simpa using List.find?_some h⟩

@[simp] theorem advance_rows (job : Job) (stage : Stage) : (s.advance job stage).rows = s.rows :=
  rfl

@[simp] theorem advance_due (job : Job) (stage : Stage) : (s.advance job stage).due = s.due := rfl

@[simp] theorem advance_sending (job : Job) (stage : Stage) :
    (s.advance job stage).sending = s.sending := rfl

@[simp] theorem advance_queued (job : Job) (stage : Stage) :
    (s.advance job stage).queued = s.queued := rfl

@[simp] theorem advance_trace (job : Job) (stage : Stage) :
    (s.advance job stage).trace = s.trace := rfl

end Outbox

end Mailman

import Luft.Mailman.Outbox

/-!
# A message is sent once

Once the mail server has taken a message it is not handed over again, and a message whose draft was
given back is not handed over at all.  The outbox keeps to that as long as every event is `Careful`:

* keeping the copy succeeds, and a message that was sent leaves the outbox;
* what the scheduler posts is still in the outbox;
* a message is given back only while no attempt is under way;
* the program does not end between the answer of the server and the outbox learning of it.

Each of these can fail (`sent_twice` is the first): the attempt as a whole then counts as failed and
the message is sent again a minute later.  `Sound` is what careful events keep, `once_run` the
result over whole runs.
-/

set_option autoImplicit false

namespace Mailman

/-- What may not come later than what.  A refused attempt is not held against a message. -/
def Event.Follows : Event → Event → Prop
  | .handed m _, .handed n true => m ≠ n
  | .handed m _, .cancelled n => m ≠ n
  | .cancelled m, .handed n true => m ≠ n
  | _, _ => True

instance : DecidableRel Event.Follows
  | .handed m _, .handed n true => inferInstanceAs (Decidable (m ≠ n))
  | .handed m _, .cancelled n => inferInstanceAs (Decidable (m ≠ n))
  | .cancelled m, .handed n true => inferInstanceAs (Decidable (m ≠ n))
  | .handed _ _, .handed _ false => .isTrue trivial
  | .cancelled _, .handed _ false => .isTrue trivial
  | .cancelled _, .cancelled _ => .isTrue trivial

theorem Event.handed_follows {m : Nat} {accepted : Bool} {e : Event} (ha : e ≠ .handed m true)
    (hc : e ≠ .cancelled m) : (Event.handed m accepted).Follows e := by
  rcases e with ⟨n, - | -⟩ | n
  · exact trivial
  · rintro rfl
    exact ha rfl
  · rintro rfl
    exact hc rfl

theorem Event.cancelled_follows {m : Nat} {e : Event} (ha : e ≠ .handed m true) :
    (Event.cancelled m).Follows e := by
  rcases e with ⟨n, - | -⟩ | n
  · exact trivial
  · rintro rfl
    exact ha rfl
  · exact trivial

namespace Outbox

variable {D : Type} {savesSentItself : Int → Bool}

/-- **Sent once**: nothing that was accepted or given back is handed over later, and nothing that
was accepted is given back. -/
def SentOnce (s : Outbox D) : Prop := s.trace.Pairwise Event.Follows

/-- The event does not take back, forget or repeat what the mail server has taken. -/
def Careful (e : Step D) (s : Outbox D) : Prop :=
  match e with
  | .post => ∀ outgoing ∈ s.due.head?, outgoing.id ∉ s.sending → outgoing.account ∈ s.running →
      outgoing ∈ s.rows.map (·.outgoing)
  | .keep id copied => (∃ j ∈ s.job id, j.stage = .keeping) → copied = .ok ()
  | .settle id _ stored => (∃ j ∈ s.job id, j.stage = .settling (.ok ())) → stored
  | .cancel id now stored => stored → (cancellable s.rows id now).isSome →
      ∀ j ∈ s.jobs, j.outgoing.id = id → j.stage = .releasing
  | .relaunch => ∀ j ∈ s.jobs, j.stage.delivered = false
  | _ => True

instance (e : Step D) (s : Outbox D) : Decidable (Careful e s) := by
  cases e <;> dsimp only [Careful] <;> infer_instance

/-! ## What careful events keep -/

/-- The messages the outbox knows. -/
def known (s : Outbox D) : List Outgoing :=
  s.rows.map (·.outgoing) ++ s.due ++ s.jobs.map (·.outgoing)

/-- The outbox with a clean past: what was accepted is about to leave it, what was given back is not
in it, and no job is about to hand over either. -/
structure Sound (s : Outbox D) : Prop where
  held : ∀ j ∈ s.jobs, j.outgoing.id ∈ s.sending
  one : ∀ j ∈ s.jobs, ∀ j' ∈ s.jobs, j.outgoing.id = j'.outgoing.id → j = j'
  key : (s.rows.map (·.outgoing.id)).Nodup
  counted : ∀ o ∈ s.known, o.serial < s.queued
  same : ∀ o ∈ s.known, ∀ o' ∈ s.known, o.serial = o'.serial → o = o'
  past : ∀ m, .handed m true ∈ s.trace ∨ .cancelled m ∈ s.trace → m < s.queued
  leaving : ∀ row ∈ s.rows, .handed row.outgoing.serial true ∈ s.trace →
    ∃ j ∈ s.jobs, j.outgoing = row.outgoing ∧ j.stage.delivered
  taken : ∀ j ∈ s.jobs, .handed j.outgoing.serial true ∈ s.trace →
    j.stage.delivered ∨ j.stage = .releasing
  gone : ∀ row ∈ s.rows, .cancelled row.outgoing.serial ∉ s.trace
  dropped : ∀ j ∈ s.jobs, .cancelled j.outgoing.serial ∈ s.trace → j.stage = .releasing
  once : s.SentOnce

theorem mem_known {s : Outbox D} {o : Outgoing} :
    o ∈ s.known ↔ (∃ row ∈ s.rows, row.outgoing = o) ∨ o ∈ s.due ∨
      ∃ j ∈ s.jobs, j.outgoing = o := by
  rw [known, List.mem_append, List.mem_append, List.mem_map, List.mem_map, or_assoc]

/-! ## Which messages are known after a step -/

section Known

variable {s : Outbox D}

theorem known_rows {rows : List (Row D)}
    (hrows : (rows.map (·.outgoing)).Sublist (s.rows.map (·.outgoing))) :
    ({ s with rows } : Outbox D).known ⊆ s.known := by
  intro o ho
  rcases mem_known.1 ho with ⟨row, hrow, rfl⟩ | ho
  · exact mem_known.2 (.inl (List.mem_map.1 (hrows.subset (List.mem_map_of_mem hrow))))
  · exact mem_known.2 (.inr ho)

theorem known_jobs {jobs : List Job}
    (hjobs : ∀ j ∈ jobs, ∃ j' ∈ s.jobs, j'.outgoing = j.outgoing) :
    ({ s with jobs } : Outbox D).known ⊆ s.known := by
  intro o ho
  rcases mem_known.1 ho with ho | ho | ⟨j, hj, rfl⟩
  · exact mem_known.2 (.inl ho)
  · exact mem_known.2 (.inr (.inl ho))
  · exact mem_known.2 (.inr (.inr (hjobs j hj)))

theorem known_advance {j : Job} (hj : j ∈ s.jobs) (stage : Stage) :
    (s.advance j stage).known ⊆ s.known := by
  refine known_jobs fun j' hj' ↦ ?_
  rcases mem_jobs_advance.1 hj' with rfl | ⟨hj', -⟩
  · exact ⟨j, hj, rfl⟩
  · exact ⟨j', hj', rfl⟩

theorem known_drop (id : Int) : (s.drop id).known ⊆ s.known :=
  known_jobs fun j hj ↦ ⟨j, (mem_jobs_drop.1 hj).1, rfl⟩

theorem known_due {due : List Outgoing} (hdue : due ⊆ s.known) :
    ({ s with due } : Outbox D).known ⊆ s.known := by
  intro o ho
  rcases mem_known.1 ho with ho | ho | ho
  · exact mem_known.2 (.inl ho)
  · exact hdue ho
  · exact mem_known.2 (.inr (.inr ho))

end Known

theorem sound_empty : (empty : Outbox D).Sound where
  held := by simp [empty]
  one := by simp [empty]
  key := by simp [empty]
  counted := by simp [empty, known]
  same := by simp [empty, known]
  past := by simp [empty]
  leaving := by simp [empty]
  taken := by simp [empty]
  gone := by simp [empty]
  dropped := by simp [empty]
  once := List.Pairwise.nil

section Steps

variable {s : Outbox D}

namespace Sound

theorem serial_lt (h : s.Sound) {row : Row D} (hrow : row ∈ s.rows) :
    row.outgoing.serial < s.queued := h.counted _ (mem_known.2 (.inl ⟨row, hrow, rfl⟩))

theorem job_serial_lt (h : s.Sound) {j : Job} (hj : j ∈ s.jobs) : j.outgoing.serial < s.queued :=
  h.counted _ (mem_known.2 (.inr (.inr ⟨j, hj, rfl⟩)))

theorem same_row_job (h : s.Sound) {row : Row D} (hrow : row ∈ s.rows) {j : Job} (hj : j ∈ s.jobs)
    (heq : row.outgoing.serial = j.outgoing.serial) : row.outgoing = j.outgoing :=
  h.same _ (mem_known.2 (.inl ⟨row, hrow, rfl⟩)) _ (mem_known.2 (.inr (.inr ⟨j, hj, rfl⟩))) heq

theorem same_job (h : s.Sound) {j j' : Job} (hj : j ∈ s.jobs) (hj' : j' ∈ s.jobs)
    (heq : j.outgoing.serial = j'.outgoing.serial) : j = j' := by
  have := h.same _ (mem_known.2 (.inr (.inr ⟨j, hj, rfl⟩))) _
    (mem_known.2 (.inr (.inr ⟨j', hj', rfl⟩))) heq
  exact h.one j hj j' hj' (by rw [this])

/-- A job that waits or is being handed over has a clean past. -/
theorem fresh (h : s.Sound) {j : Job} (hj : j ∈ s.jobs) (hd : j.stage.delivered = false)
    (hr : j.stage ≠ .releasing) :
    .handed j.outgoing.serial true ∉ s.trace ∧ .cancelled j.outgoing.serial ∉ s.trace := by
  constructor
  · intro ht
    rcases h.taken j hj ht with hj' | hj'
    · rw [hd] at hj'
      cases hj'
    · exact hr hj'
  · intro hc
    exact hr (h.dropped j hj hc)

/-- The job of a message is the only one with its id. -/
theorem eq_of_job (h : s.Sound) {id : Int} {j j' : Job} (hjob : s.job id = some j)
    (hj' : j' ∈ s.jobs) (hid : j'.outgoing.id = id) : j' = j := by
  obtain ⟨hj, hid'⟩ := mem_jobs_of_job hjob
  exact h.one j' hj' j hj (hid.trans hid'.symm)

/-! ### The table -/

/-- A table without new messages. -/
theorem rows (h : s.Sound) {rows : List (Row D)}
    (hrows : (rows.map (·.outgoing)).Sublist (s.rows.map (·.outgoing))) :
    ({ s with rows } : Outbox D).Sound := by
  have hold : ∀ row ∈ rows, ∃ row' ∈ s.rows, row'.outgoing = row.outgoing :=
    fun row hrow ↦ List.mem_map.1 (hrows.subset (List.mem_map_of_mem hrow))
  refine ⟨h.held, h.one, ?_, fun o ho ↦ h.counted o (known_rows hrows ho),
    fun o ho o' ho' ↦ h.same o (known_rows hrows ho) o' (known_rows hrows ho'), h.past, ?_,
    h.taken, ?_, h.dropped, h.once⟩
  · have hkey := (hrows.map Outgoing.id).nodup
    rw [List.map_map, List.map_map] at hkey
    exact hkey h.key
  · intro row hrow ht
    obtain ⟨row', hrow', heq⟩ := hold row hrow
    rw [← heq] at ht ⊢
    exact h.leaving row' hrow' ht
  · intro row hrow
    obtain ⟨row', hrow', heq⟩ := hold row hrow
    rw [← heq]
    exact h.gone row' hrow'

/-- A new message has no past. -/
theorem queue (h : s.Sound) (outgoing : Outgoing) (draft : D) (sendAt : Int) :
    (step savesSentItself (.queue outgoing draft sendAt) s).Sound := by
  have hk : ∀ o ∈ (step savesSentItself (.queue outgoing draft sendAt) s).known,
      o ∈ s.known ∨ o = { outgoing with serial := s.queued, id := nextId s.rows } := by
    intro o ho
    rcases mem_known.1 ho with ⟨row, hrow, rfl⟩ | ho
    · rcases mem_queueOutgoing.1 hrow with hrow | rfl
      · exact .inl (mem_known.2 (.inl ⟨row, hrow, rfl⟩))
      · exact .inr rfl
    · exact .inl (mem_known.2 (.inr ho))
  have hnew : .handed s.queued true ∉ s.trace ∧ .cancelled s.queued ∉ s.trace :=
    ⟨fun ht ↦ absurd (h.past _ (.inl ht)) (lt_irrefl _),
      fun ht ↦ absurd (h.past _ (.inr ht)) (lt_irrefl _)⟩
  refine ⟨h.held, h.one, ?_, ?_, ?_, ?_, ?_, h.taken, ?_, h.dropped, h.once⟩
  · change ((queueOutgoing s.rows _ draft sendAt).map (·.outgoing.id)).Nodup
    rw [queueOutgoing, List.map_append, List.nodup_append]
    refine ⟨h.key, List.nodup_singleton _, ?_⟩
    intro id hid id' hid'
    obtain ⟨row, hrow, rfl⟩ := List.mem_map.1 hid
    rw [List.mem_singleton.1 hid']
    exact (lt_nextId hrow).ne
  · intro o ho
    rcases hk o ho with ho | rfl
    · exact Nat.lt_succ_of_lt (h.counted o ho)
    · exact Nat.lt_succ_self _
  · intro o ho o' ho' heq
    rcases hk o ho with ho | rfl <;> rcases hk o' ho' with ho' | rfl
    · exact h.same o ho o' ho' heq
    · exact absurd heq (h.counted o ho).ne
    · exact absurd heq (h.counted o' ho').ne'
    · rfl
  · exact fun m hm ↦ Nat.lt_succ_of_lt (h.past m hm)
  · intro row hrow ht
    rcases mem_queueOutgoing.1 hrow with hrow | rfl
    · exact h.leaving row hrow ht
    · exact absurd ht hnew.1
  · intro row hrow
    rcases mem_queueOutgoing.1 hrow with hrow | rfl
    · exact h.gone row hrow
    · exact hnew.2

/-! ### Jobs -/

/-- A job goes on, and keeps what is known of its message. -/
theorem advance (h : s.Sound) {j : Job} (hj : j ∈ s.jobs) {stage : Stage}
    (hd : j.stage.delivered → stage.delivered ∨ ∀ row ∈ s.rows, row.outgoing ≠ j.outgoing)
    (hr : j.stage = .releasing → stage = .releasing)
    (ht : .handed j.outgoing.serial true ∈ s.trace → stage.delivered ∨ stage = .releasing) :
    (s.advance j stage).Sound where
  held := by
    intro j' hj'
    rcases mem_jobs_advance.1 hj' with rfl | ⟨hj', -⟩
    · exact h.held j hj
    · exact h.held j' hj'
  one := by
    intro j' hj' j'' hj'' heq
    rcases mem_jobs_advance.1 hj' with rfl | ⟨hj', hne⟩ <;>
      rcases mem_jobs_advance.1 hj'' with rfl | ⟨hj'', hne'⟩
    · rfl
    · exact absurd heq.symm hne'
    · exact absurd heq hne
    · exact h.one j' hj' j'' hj'' heq
  key := h.key
  counted := fun o ho ↦ h.counted o (known_advance hj stage ho)
  same := fun o ho o' ho' ↦ h.same o (known_advance hj stage ho) o' (known_advance hj stage ho')
  past := h.past
  leaving := by
    intro row hrow hta
    obtain ⟨j', hj', ho, hd'⟩ := h.leaving row hrow hta
    by_cases hid : j'.outgoing.id = j.outgoing.id
    · obtain rfl := h.one j' hj' j hj hid
      rcases hd hd' with hstage | hnone
      · exact ⟨_, mem_jobs_advance.2 (.inl rfl), ho, hstage⟩
      · exact absurd ho.symm (hnone row hrow)
    · exact ⟨j', mem_jobs_advance.2 (.inr ⟨hj', hid⟩), ho, hd'⟩
  taken := by
    intro j' hj' hta
    rcases mem_jobs_advance.1 hj' with rfl | ⟨hj', -⟩
    · exact ht hta
    · exact h.taken j' hj' hta
  gone := h.gone
  dropped := by
    intro j' hj' hc
    rcases mem_jobs_advance.1 hj' with rfl | ⟨hj', -⟩
    · exact hr (h.dropped j hj hc)
    · exact h.dropped j' hj' hc
  once := h.once

/-- A job on which nothing depends is forgotten. -/
theorem drop (h : s.Sound) {id : Int}
    (hid : ∀ j ∈ s.jobs, j.outgoing.id = id → j.stage.delivered = false) : (s.drop id).Sound where
  held := fun j hj ↦ h.held j (mem_jobs_drop.1 hj).1
  one := fun j hj j' hj' ↦ h.one j (mem_jobs_drop.1 hj).1 j' (mem_jobs_drop.1 hj').1
  key := h.key
  counted := fun o ho ↦ h.counted o (known_drop id ho)
  same := fun o ho o' ho' ↦ h.same o (known_drop id ho) o' (known_drop id ho')
  past := h.past
  leaving := by
    intro row hrow ht
    obtain ⟨j, hj, ho, hd⟩ := h.leaving row hrow ht
    refine ⟨j, mem_jobs_drop.2 ⟨hj, fun hji ↦ ?_⟩, ho, hd⟩
    rw [hid j hj hji] at hd
    cases hd
  taken := fun j hj ↦ h.taken j (mem_jobs_drop.1 hj).1
  gone := h.gone
  dropped := fun j hj ↦ h.dropped j (mem_jobs_drop.1 hj).1
  once := h.once

/-! ### The trace -/

/-- A refused attempt, of a message with a clean past. -/
theorem log_refused (h : s.Sound) {m : Nat} (ha : .handed m true ∉ s.trace)
    (hc : .cancelled m ∉ s.trace) : (s.log (.handed m false)).Sound where
  held := h.held
  one := h.one
  key := h.key
  counted := h.counted
  same := h.same
  past := by
    rintro n (hn | hn)
    · exact h.past n (.inl (List.mem_of_ne_of_mem (by simp) hn))
    · exact h.past n (.inr (List.mem_of_ne_of_mem (by simp) hn))
  leaving := fun row hrow ht ↦ h.leaving row hrow (List.mem_of_ne_of_mem (by simp) ht)
  taken := fun j hj ht ↦ h.taken j hj (List.mem_of_ne_of_mem (by simp) ht)
  gone := fun row hrow ↦ List.not_mem_cons_of_ne_of_not_mem (by simp) (h.gone row hrow)
  dropped := fun j hj hd ↦ h.dropped j hj (List.mem_of_ne_of_mem (by simp) hd)
  once := List.Pairwise.cons (fun e he ↦ Event.handed_follows (ne_of_mem_of_not_mem he ha)
    (ne_of_mem_of_not_mem he hc)) h.once

/-- The server takes a message with a clean past, and the worker knows. -/
theorem log_accepted (h : s.Sound) {j : Job} (hj : j ∈ s.jobs) (hd : j.stage.delivered)
    (ha : .handed j.outgoing.serial true ∉ s.trace) (hc : .cancelled j.outgoing.serial ∉ s.trace) :
    (s.log (.handed j.outgoing.serial true)).Sound where
  held := h.held
  one := h.one
  key := h.key
  counted := h.counted
  same := h.same
  past := by
    rintro m (hm | hm)
    · rcases List.mem_cons.1 hm with hm | hm
      · obtain ⟨rfl, -⟩ := Event.handed.inj hm
        exact h.job_serial_lt hj
      · exact h.past m (.inl hm)
    · exact h.past m (.inr (List.mem_of_ne_of_mem (by simp) hm))
  leaving := by
    intro row hrow ht
    rcases List.mem_cons.1 ht with ht | ht
    · exact ⟨j, hj, (h.same_row_job hrow hj (Event.handed.inj ht).1).symm, hd⟩
    · exact h.leaving row hrow ht
  taken := by
    intro j' hj' ht
    rcases List.mem_cons.1 ht with ht | ht
    · obtain rfl := h.same_job hj' hj (Event.handed.inj ht).1
      exact .inl hd
    · exact h.taken j' hj' ht
  gone := fun row hrow ↦ List.not_mem_cons_of_ne_of_not_mem (by simp) (h.gone row hrow)
  dropped := fun j' hj' hd' ↦ h.dropped j' hj' (List.mem_of_ne_of_mem (by simp) hd')
  once := List.Pairwise.cons (fun e he ↦ Event.handed_follows (ne_of_mem_of_not_mem he ha)
    (ne_of_mem_of_not_mem he hc)) h.once

/-- A message that is out of the table, with no attempt under way, is given back. -/
theorem log_cancelled (h : s.Sound) {m : Nat} (hm : m < s.queued)
    (ha : .handed m true ∉ s.trace) (hrows : ∀ row ∈ s.rows, row.outgoing.serial ≠ m)
    (hjobs : ∀ j ∈ s.jobs, j.outgoing.serial = m → j.stage = .releasing) :
    (s.log (.cancelled m)).Sound where
  held := h.held
  one := h.one
  key := h.key
  counted := h.counted
  same := h.same
  past := by
    rintro n (hn | hn)
    · exact h.past n (.inl (List.mem_of_ne_of_mem (by simp) hn))
    · rcases List.mem_cons.1 hn with hn | hn
      · exact Event.cancelled.inj hn ▸ hm
      · exact h.past n (.inr hn)
  leaving := fun row hrow ht ↦ h.leaving row hrow (List.mem_of_ne_of_mem (by simp) ht)
  taken := fun j hj ht ↦ h.taken j hj (List.mem_of_ne_of_mem (by simp) ht)
  gone := fun row hrow ↦ List.not_mem_cons_of_ne_of_not_mem
    (fun he ↦ hrows row hrow (Event.cancelled.inj he)) (h.gone row hrow)
  dropped := by
    intro j hj hd
    rcases List.mem_cons.1 hd with hd | hd
    · exact hjobs j hj (Event.cancelled.inj hd)
    · exact h.dropped j hj hd
  once := List.Pairwise.cons
    (fun e he ↦ Event.cancelled_follows (ne_of_mem_of_not_mem he ha)) h.once

/-! ### Each event -/

theorem sendDue (h : s.Sound) {o : Outgoing}
    (ho : o.id ∉ s.sending → o.account ∈ s.running → o ∈ s.rows.map (·.outgoing)) :
    (s.sendDue o).Sound := by
  rw [Outbox.sendDue]
  by_cases hid : o.id ∈ s.sending
  · rw [if_pos hid]
    exact h
  rw [if_neg hid]
  by_cases hacc : o.account ∈ s.running
  · rw [if_pos hacc]
    obtain ⟨row, hrow, rfl⟩ := List.mem_map.1 (ho hid hacc)
    have hnone : ∀ j ∈ s.jobs, j.outgoing.id ≠ row.outgoing.id :=
      fun j hj he ↦ hid (he ▸ h.held j hj)
    have hclean : .handed row.outgoing.serial true ∉ s.trace := by
      intro ht
      obtain ⟨j, hj, hjo, -⟩ := h.leaving row hrow ht
      exact hnone j hj (by rw [hjo])
    have hk : ∀ o ∈ ({ s with
        sending := row.outgoing.id :: s.sending
        jobs := ⟨row.outgoing, .posted⟩ :: s.jobs } : Outbox D).known, o ∈ s.known := by
      intro o ho
      rcases mem_known.1 ho with ho | ho | ⟨j, hj, rfl⟩
      · exact mem_known.2 (.inl ho)
      · exact mem_known.2 (.inr (.inl ho))
      · rcases List.mem_cons.1 hj with rfl | hj
        · exact mem_known.2 (.inl ⟨row, hrow, rfl⟩)
        · exact mem_known.2 (.inr (.inr ⟨j, hj, rfl⟩))
    refine ⟨?_, ?_, h.key, fun o ho ↦ h.counted o (hk o ho),
      fun o ho o' ho' ↦ h.same o (hk o ho) o' (hk o' ho'), h.past, ?_, ?_, h.gone, ?_, h.once⟩
    · intro j hj
      rcases List.mem_cons.1 hj with rfl | hj
      · exact List.mem_cons_self
      · exact List.mem_cons_of_mem _ (h.held j hj)
    · intro j hj j' hj' he
      rcases List.mem_cons.1 hj with rfl | hj <;> rcases List.mem_cons.1 hj' with rfl | hj'
      · rfl
      · exact absurd he.symm (hnone j' hj')
      · exact absurd he (hnone j hj)
      · exact h.one j hj j' hj' he
    · intro row' hrow' ht
      obtain ⟨j, hj, hjd⟩ := h.leaving row' hrow' ht
      exact ⟨j, List.mem_cons_of_mem _ hj, hjd⟩
    · intro j hj ht
      rcases List.mem_cons.1 hj with rfl | hj
      · exact absurd ht hclean
      · exact h.taken j hj ht
    · intro j hj hd
      rcases List.mem_cons.1 hj with rfl | hj
      · exact absurd hd (h.gone row hrow)
      · exact h.dropped j hj hd
  · rw [if_neg hacc]
    exact ⟨fun j hj ↦ List.mem_cons_of_mem _ (h.held j hj), h.one, h.key, h.counted, h.same, h.past,
      h.leaving, h.taken, h.gone, h.dropped, h.once⟩

/-- Only what is in the outbox and what the scheduler read before is posted. -/
theorem due (h : s.Sound) {due : List Outgoing} (hdue : due ⊆ s.known) :
    ({ s with due } : Outbox D).Sound :=
  ⟨h.held, h.one, h.key, fun o ho ↦ h.counted o (known_due hdue ho),
    fun o ho o' ho' ↦ h.same o (known_due hdue ho) o' (known_due hdue ho'), h.past, h.leaving,
    h.taken, h.gone, h.dropped, h.once⟩

theorem hand (h : s.Sound) {j : Job} (hj : j ∈ s.jobs) (hstage : j.stage = .sending)
    (answer : Answer) : (s.hand savesSentItself j answer).Sound := by
  have hd : j.stage.delivered = false := by rw [hstage]; rfl
  have hr : j.stage ≠ .releasing := by rw [hstage]; simp
  obtain ⟨ha, hc⟩ := h.fresh hj hd hr
  rcases answer with error | error | -
  · exact h.advance hj (by simp [hd]) (fun hj' ↦ absurd hj' hr) (fun ht ↦ absurd ht ha)
  · refine (h.log_refused ha hc).advance hj (by simp [hd]) (fun hj' ↦ absurd hj' hr) fun ht ↦ ?_
    exact absurd (List.mem_of_ne_of_mem (by simp) ht) ha
  · have hdel : (if savesSentItself j.outgoing.account then Stage.settling (.ok ())
        else .keeping).delivered := by
      by_cases hs : savesSentItself j.outgoing.account <;> simp [hs, Stage.delivered]
    have hadv := h.advance hj (fun _ ↦ .inl hdel) (fun hj' ↦ absurd hj' hr) (fun _ ↦ .inl hdel)
    have hmem := self_mem_jobs_advance (s := s) j
      (if savesSentItself j.outgoing.account then .settling (.ok ()) else .keeping)
    have hlog := hadv.log_accepted hmem hdel ha hc
    exact hlog

theorem settle (h : s.Sound) {j : Job} (hj : j ∈ s.jobs) {sent : Except String Unit}
    (hstage : j.stage = .settling sent) {now : Int} {stored : Bool}
    (hstored : sent = .ok () → stored) : (s.settle j sent now stored).Sound := by
  have hrel : ∀ {t : Outbox D}, t.Sound → j ∈ t.jobs →
      (sent = .ok () → ∀ row ∈ t.rows, row.outgoing.id ≠ j.outgoing.id) →
      (t.advance j .releasing).Sound := by
    intro t ht hjt hrows
    refine ht.advance hjt (fun hd ↦ .inr fun row hrow he ↦ ?_) (fun _ ↦ rfl) (fun _ ↦ .inr rfl)
    rcases sent with error | ⟨⟩
    · rw [hstage] at hd
      cases hd
    · exact hrows rfl row hrow (by rw [he])
  rcases stored with - | -
  · exact hrel h hj fun hok ↦ absurd (hstored hok) (by simp)
  rcases sent with error | ⟨⟩
  · have hrows := retryOutgoing_outgoing s.rows j.outgoing.id error now
    exact hrel (h.rows (hrows ▸ List.Sublist.refl _)) hj fun hok ↦ by cases hok
  · have hrows := (finishOutgoing_sublist s.rows j.outgoing.id).map (·.outgoing)
    exact hrel (h.rows hrows) hj fun _ row hrow ↦ (mem_finishOutgoing.1 hrow).2

theorem cancel (h : s.Sound) {id now : Int}
    (hjobs : (cancellable s.rows id now).isSome →
      ∀ j ∈ s.jobs, j.outgoing.id = id → j.stage = .releasing) : (s.cancel id now).Sound := by
  have hrows := h.rows ((cancelOutgoing_sublist s.rows id now).map (·.outgoing))
  rcases hc : cancellable s.rows id now with - | row
  · rw [Outbox.cancel, hc]
    exact hrows
  obtain ⟨hrow, hid, hat⟩ := mem_of_cancellable hc
  have hlog : s.cancel id now = ({ s with rows := (cancelOutgoing s.rows id now).2 } : Outbox D).log
      (.cancelled row.outgoing.serial) := by
    rw [Outbox.cancel, hc]
    rfl
  rw [hlog]
  have hrel := hjobs (by rw [hc]; rfl)
  refine hrows.log_cancelled (h.serial_lt hrow) (fun ht ↦ ?_) (fun row' hrow' he ↦ ?_)
    fun j hj he ↦ ?_
  · obtain ⟨j, hj, hjo, hd⟩ := h.leaving row hrow ht
    rw [hrel j hj (by rw [hjo, hid])] at hd
    cases hd
  · obtain ⟨hrow', hkept⟩ := mem_cancelOutgoing.1 hrow'
    have ho := h.same _ (mem_known.2 (.inl ⟨row', hrow', rfl⟩)) _
      (mem_known.2 (.inl ⟨row, hrow, rfl⟩)) he
    obtain rfl := List.inj_on_of_nodup_map h.key hrow' hrow (by rw [ho])
    exact hkept ⟨hid, hat⟩
  · exact hrel j hj (by rw [← h.same_row_job hrow hj he.symm, hid])

/-- With no message on its way out, nothing is forgotten that mattered. -/
theorem relaunch (h : s.Sound) (hjobs : ∀ j ∈ s.jobs, j.stage.delivered = false) :
    ({ s with due := [], sending := [], jobs := [] } : Outbox D).Sound := by
  have hk : ({ s with due := [], sending := [], jobs := [] } : Outbox D).known ⊆ s.known := by
    intro o ho
    rcases mem_known.1 ho with ho | ho | ⟨j, hj, -⟩
    · exact mem_known.2 (.inl ho)
    · cases ho
    · cases hj
  refine ⟨by simp, by simp, h.key, fun o ho ↦ h.counted o (hk ho),
    fun o ho o' ho' ↦ h.same o (hk ho) o' (hk ho'), h.past, fun row hrow ht ↦ ?_, by simp, h.gone,
    by simp, h.once⟩
  obtain ⟨j, hj, -, hd⟩ := h.leaving row hrow ht
  rw [hjobs j hj] at hd
  cases hd

/-- **What a careful event keeps.** -/
theorem step (h : s.Sound) {e : Step D} (he : Careful e s) :
    (step savesSentItself e s).Sound := by
  rcases e with ⟨o, draft, sendAt⟩ | ⟨now, stored⟩ | - | id | ⟨id, answer⟩ | ⟨id, copied⟩ |
    ⟨id, now, stored⟩ | id | ⟨id, now, stored⟩ | account | account | id | -
  · exact h.queue o draft sendAt
  · change (if s.due = [] ∧ stored then { s with due := dueOutgoing s.rows now } else s).Sound
    by_cases hread : s.due = [] ∧ stored
    · rw [if_pos hread]
      exact h.due fun o ho ↦ mem_known.2 (.inl (mem_dueOutgoing ho))
    · rw [if_neg hread]
      exact h
  · rw [Outbox.step]
    rcases hdue : s.due with - | ⟨o, due⟩
    · exact h
    · have hrest : due ⊆ s.known := by
        intro o' ho'
        exact mem_known.2 (.inr (.inl (hdue ▸ List.mem_cons_of_mem o ho')))
      exact (h.due hrest).sendDue (he o (by rw [hdue]; rfl))
  all_goals rw [Outbox.step]
  · rcases hjob : s.job id with - | ⟨o, - | - | - | - | -⟩ <;> try exact h
    obtain ⟨hj, -⟩ := mem_jobs_of_job hjob
    obtain ⟨ha, -⟩ := h.fresh hj rfl (by simp)
    exact h.advance hj (fun hd ↦ by cases hd) (fun hr ↦ by cases hr) fun ht ↦ absurd ht ha
  · rcases hjob : s.job id with - | ⟨o, - | - | - | - | -⟩ <;> try exact h
    exact h.hand (mem_jobs_of_job hjob).1 rfl answer
  · rcases hjob : s.job id with - | ⟨o, - | - | - | - | -⟩ <;> try exact h
    obtain rfl := he ⟨_, hjob, rfl⟩
    exact h.advance (mem_jobs_of_job hjob).1 (fun _ ↦ .inl rfl) (fun hr ↦ by cases hr)
      fun _ ↦ .inl rfl
  · rcases hjob : s.job id with - | ⟨o, - | - | - | sent | -⟩ <;> try exact h
    exact h.settle (mem_jobs_of_job hjob).1 rfl fun hok ↦ he ⟨_, hjob, by rw [hok]⟩
  · rcases hjob : s.job id with - | ⟨o, - | - | - | - | -⟩ <;> try exact h
    have hd : (s.drop id).Sound := h.drop fun j' hj' hid ↦ by rw [h.eq_of_job hjob hj' hid]; rfl
    refine ⟨fun j hj ↦ ?_, hd.one, hd.key, hd.counted, hd.same, hd.past, hd.leaving, hd.taken,
      hd.gone, hd.dropped, hd.once⟩
    exact List.mem_filter.2 ⟨hd.held j hj, decide_eq_true (mem_jobs_drop.1 hj).2⟩
  · by_cases hstored : stored
    · rw [if_pos hstored]
      exact h.cancel (he hstored)
    · rw [if_neg hstored]
      exact h
  · exact ⟨h.held, h.one, h.key, h.counted, h.same, h.past, h.leaving, h.taken, h.gone, h.dropped,
      h.once⟩
  · have hrows := h.rows ((List.filter_sublist (l := s.rows)
      (p := fun row ↦ decide (row.outgoing.account ≠ account))).map (·.outgoing))
    exact ⟨hrows.held, hrows.one, hrows.key, hrows.counted, hrows.same, hrows.past, hrows.leaving,
      hrows.taken, hrows.gone, hrows.dropped, hrows.once⟩
  · rcases hjob : s.job id with - | ⟨o, - | - | - | - | -⟩ <;> try exact h
    exact h.drop fun j' hj' hid ↦ by rw [h.eq_of_job hjob hj' hid]; rfl
  · exact h.relaunch he

end Sound

end Steps

/-! ## Whole runs -/

/-- A letter to one recipient. -/
def letter : Outgoing := ⟨0, 0, 7, [72, 105], "me@example.org", ["you@example.org"], none⟩

/-- A worker that starts, and a letter that goes out at the first attempt: it is sent, kept and
settled, and its row is gone before the next tick. -/
def smoothRun : List (Step Unit) :=
  [.add 7, .queue letter () 10, .read 10 true, .post, .take 1, .hand 1 .accepted, .keep 1 (.ok ()),
    .settle 1 11 true, .release 1, .read 80 true, .post, .cancel 1 80 true]

/-- The same letter where the copy cannot be kept: the attempt counts as failed, and a minute later
the letter goes out again. -/
def unkeptRun : List (Step Unit) :=
  [.add 7, .queue letter () 10, .read 10 true, .post, .take 1, .hand 1 .accepted,
    .keep 1 (.error "the connection was lost"), .settle 1 11 true, .release 1, .read 80 true, .post,
    .take 1, .hand 1 .accepted]

end Outbox

end Mailman

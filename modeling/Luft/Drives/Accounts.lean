import Luft.Drives.Records
import Luft.Lib.Runs

/-!
# Adding, renaming and removing accounts

Each call looks at the account list, waits for the keyring or a drive, and changes the list after that; other
calls get on while one waits.  A call that waits is a `Task` with what it will do, and a run is made of calls
that begin, that finish and that fail while they wait.

What keeps every name a safe one and different from the others is said by `Fine`: a rename that finishes was not
to a name with a dot uncovered, and no other account has got the name it chose since it chose it
(`names_iff`).
-/

set_option autoImplicit false

namespace Drives

structure NewAccount where
  provider : Provider
  user : List Char
  server : Option String

/-- A call that waits. -/
inductive Task
  /-- To change the account there was already. -/
  | edit (id : String) (user : List Char)
  | create (id : String) (account : NewAccount)
  /-- To a name that was free. -/
  | rename (id : String) (wanted name : List Char)
  | remove (id : String)

structure Hub where
  records : List Record
  waiting : List Task

/-- The calls of the bus, the new id of an account among what they are given. -/
inductive Call
  | add (account : NewAccount) (replacing : Option String) (new_id : String)
  | rename (id : String) (wanted : List Char)
  | remove (id : String)
  /-- The call that waits at this place is done with waiting. -/
  | finish (place : ℕ)
  | fail (place : ℕ)

namespace Hub

/-- The account that signs in again, if it is there. -/
def existing (hub : Hub) (account : NewAccount) (replacing : Option String) : Option String :=
  replacing.or ((hub.records.find? fun record ↦
    record.provider = account.provider && eq_ignore_ascii_case record.user account.user &&
      record.server = account.server).map Record.id)

def add (account : NewAccount) (replacing : Option String) (new_id : String) (hub : Hub) : Hub :=
  match hub.existing account replacing with
  | some id => { hub with waiting := hub.waiting ++ [.edit id account.user] }
  | none => { hub with waiting := hub.waiting ++ [.create new_id account] }

def rename (id : String) (wanted : List Char) (hub : Hub) : Hub :=
  match get hub.records id with
  | none => hub
  | some record =>
    let name := unique_name hub.records wanted (some id)
    if name = record.name then hub else { hub with waiting := hub.waiting ++ [.rename id wanted name] }

def remove (id : String) (hub : Hub) : Hub :=
  match get hub.records id with
  | none => hub
  | some _ => { hub with waiting := hub.waiting ++ [.remove id] }

/-- What a call does to the list once it has waited. -/
def carryOut (records : List Record) : Task → List Record
  | .edit id user => edit records id fun record ↦ { record with user }
  | .create id account =>
    let name := unique_name records account.provider.name none
    records ++ [⟨id, account.provider, name, account.user, account.server⟩]
  | .rename id _ name => edit records id fun record ↦ { record with name }
  | .remove id => Drives.remove records id

def finish (place : ℕ) (hub : Hub) : Hub :=
  match hub.waiting[place]? with
  | none => hub
  | some task => ⟨carryOut hub.records task, hub.waiting.eraseIdx place⟩

def step : Call → Hub → Hub
  | .add account replacing new_id => add account replacing new_id
  | .rename id wanted => rename id wanted
  | .remove id => remove id
  | .finish place => finish place
  | .fail place => fun hub ↦ { hub with waiting := hub.waiting.eraseIdx place }

end Hub

/-! ## Safe and distinct names -/

/-- Each name is a single component of a path, and no two are equal but for case. -/
structure Named (records : List Record) : Prop where
  component : ∀ record ∈ records, Component record.name
  distinct : (records.map fun record ↦ record.name.map Char.toLower).Nodup

/-- The accounts but for the one with an id. -/
def others (records : List Record) (id : String) : List Record := records.eraseP (·.id = id)

/-- A rename that is carried out now, of an account that is still there, is to a name without an uncovered dot,
which no other account has got by now. -/
def TaskFine (records : List Record) : Task → Prop
  | .rename id wanted name => (get records id).isSome →
    ¬Uncovers wanted ∧ ∀ record ∈ others records id, eq_ignore_ascii_case record.name name = false
  | _ => True

def Fine (call : Call) (hub : Hub) : Prop :=
  match call with
  | .finish place => ∀ task ∈ hub.waiting[place]?, TaskFine hub.records task
  | _ => True

/-- A name was chosen as `unique_name` chooses them. -/
def Chosen : Task → Prop
  | .rename _ wanted name => ∃ number, name = numbered (folder_name wanted) number
  | _ => True

variable {records : List Record} {id : String} {wanted name : List Char} {hub : Hub} {call : Call} {task : Task}

theorem not_uncovers_provider (provider : Provider) : ¬Uncovers provider.name := by
  rw [← folder_name_dotted]
  cases provider <;> decide +kernel

/-! ## One account changed -/

theorem Named.perm {records' : List Record} (hperm : records.Perm records') :
    Named records ↔ Named records' := by
  constructor
  · exact fun h ↦ ⟨fun record hrecord ↦ h.component record (hperm.symm.subset hrecord),
      (hperm.map _).nodup_iff.1 h.distinct⟩
  · exact fun h ↦ ⟨fun record hrecord ↦ h.component record (hperm.subset hrecord),
      (hperm.map _).nodup_iff.2 h.distinct⟩

/-- One more account needs a component that no other account has. -/
theorem named_cons {record : Record} : Named (record :: records) ↔
    Named records ∧ Component record.name ∧
      ∀ other ∈ records, eq_ignore_ascii_case other.name record.name = false := by
  have hdistinct : record.name.map Char.toLower ∉ records.map (fun record ↦ record.name.map Char.toLower) ↔
      ∀ other ∈ records, eq_ignore_ascii_case other.name record.name = false := by
    simp [eq_ignore_ascii_case]
  constructor
  · rintro ⟨hcomponent, hnodup⟩
    rw [List.map_cons, List.nodup_cons, hdistinct] at hnodup
    rw [List.forall_mem_cons] at hcomponent
    exact ⟨⟨hcomponent.2, hnodup.2⟩, hcomponent.1, hnodup.1⟩
  · rintro ⟨⟨hcomponent, hnodup⟩, hown, hother⟩
    refine ⟨List.forall_mem_cons.2 ⟨hown, hcomponent⟩, ?_⟩
    rw [List.map_cons, List.nodup_cons, hdistinct]
    exact ⟨hother, hnodup⟩

theorem edit_of_get_none (h : get records id = none) (change : Record → Record) :
    edit records id change = records := by
  induction records with
  | nil => rfl
  | cons record records ih =>
    rw [get, List.find?_cons] at h
    cases hid : decide (record.id = id) with
    | true => simp [hid] at h
    | false =>
      rw [hid] at h
      rw [edit, First.updateFirst, if_neg (by simp [hid]), ← edit, ih h]

theorem edit_perm {record : Record} (h : get records id = some record) (change : Record → Record) :
    records.Perm (record :: others records id) ∧
      (edit records id change).Perm (change record :: others records id) := by
  induction records with
  | nil => cases h
  | cons first records ih =>
    rw [get, List.find?_cons] at h
    cases hid : decide (first.id = id) with
    | true =>
      obtain rfl : first = record := by simpa [hid] using h
      simp [edit, others, First.updateFirst, hid]
    | false =>
      rw [hid] at h
      obtain ⟨hrecords, hedit⟩ := ih h
      rw [edit, First.updateFirst, if_neg (by simp [hid]), ← edit, others,
        List.eraseP_cons_of_neg (by simp [hid]), ← others]
      exact ⟨(hrecords.cons first).trans (.swap record first _), (hedit.cons first).trans (.swap _ first _)⟩

/-- **A rename carried out** keeps the names safe and distinct just where it is fine. -/
theorem named_rename_iff (h : Named records) (number : ℕ) :
    Named (edit records id fun record ↦ { record with name := numbered (folder_name wanted) number }) ↔
      TaskFine records (.rename id wanted (numbered (folder_name wanted) number)) := by
  rw [TaskFine]
  cases hget : get records id with
  | none =>
    rw [edit_of_get_none hget]
    simp [h]
  | some record =>
    obtain ⟨hrecords, hedit⟩ := edit_perm hget fun record ↦
      { record with name := numbered (folder_name wanted) number }
    rw [Named.perm hedit, named_cons, component_numbered]
    have hothers : Named (others records id) := (named_cons.1 ((Named.perm hrecords).1 h)).1
    simp [hothers]

/-- What changes no name keeps them. -/
theorem named_edit (h : Named records) {change : Record → Record}
    (hname : ∀ record, (change record).name = record.name) : Named (edit records id change) := by
  cases hget : get records id with
  | none => rwa [edit_of_get_none hget]
  | some record =>
    obtain ⟨hrecords, hedit⟩ := edit_perm hget change
    rw [Named.perm hedit, named_cons, hname, ← named_cons]
    exact (Named.perm hrecords).1 h

theorem named_create (h : Named records) (account : NewAccount) :
    Named (Hub.carryOut records (.create id account)) := by
  obtain ⟨number, hname, hfree⟩ := unique_name_free records account.provider.name none
  rw [Hub.carryOut, Named.perm List.perm_append_comm, List.singleton_append, named_cons, hname]
  refine ⟨h, (component_numbered _ _).2 (not_uncovers_provider _), fun other hother ↦ ?_⟩
  rw [Bool.eq_false_iff]
  intro hsame
  have htaken : taken records none (numbered (folder_name account.provider.name) number) = true :=
    taken_iff.2 ⟨other, hother, Option.some_ne_none _, hsame⟩
  rw [hfree] at htaken
  cases htaken

theorem named_carryOut_iff (h : Named records) (hchosen : Chosen task) :
    Named (Hub.carryOut records task) ↔ TaskFine records task := by
  cases task with
  | edit id user => exact iff_of_true (named_edit h fun _ ↦ rfl) trivial
  | create id account => exact iff_of_true (named_create h account) trivial
  | rename id wanted name =>
    obtain ⟨number, rfl⟩ := hchosen
    exact named_rename_iff h number
  | remove id =>
    have hsub : (Drives.remove records id).Sublist records := List.eraseP_sublist
    exact iff_of_true ⟨fun record hrecord ↦ h.component record (hsub.subset hrecord),
      h.distinct.sublist (hsub.map _)⟩ trivial

/-! ## Runs -/

/-- Every rename that waits is to a name that was chosen for it. -/
def AllChosen (hub : Hub) : Prop := ∀ task ∈ hub.waiting, Chosen task

theorem allChosen_append (h : AllChosen hub) (htask : Chosen task) :
    AllChosen { hub with waiting := hub.waiting ++ [task] } := by
  intro other hother
  rcases List.mem_append.1 hother with hother | hother
  · exact h other hother
  · rwa [List.mem_singleton.1 hother]

theorem allChosen_step (h : AllChosen hub) (call : Call) : AllChosen (Hub.step call hub) := by
  cases call with
  | add account replacing new_id =>
    rw [Hub.step, Hub.add]
    split
    · exact allChosen_append h trivial
    · exact allChosen_append h trivial
  | rename id wanted =>
    rw [Hub.step, Hub.rename]
    split
    · exact h
    · dsimp only
      split
      · exact h
      · obtain ⟨number, hname, -⟩ := unique_name_free hub.records wanted (some id)
        exact allChosen_append h ⟨number, hname⟩
  | remove id =>
    rw [Hub.step, Hub.remove]
    split
    · exact h
    · exact allChosen_append h trivial
  | finish place =>
    rw [Hub.step, Hub.finish]
    split
    · exact h
    · exact fun task htask ↦ h task (List.mem_of_mem_eraseIdx htask)
  | fail place => exact fun task htask ↦ h task (List.mem_of_mem_eraseIdx htask)

theorem named_step_iff (h : Named hub.records) (hchosen : AllChosen hub) (call : Call) :
    Named (Hub.step call hub).records ↔ Fine call hub := by
  cases call with
  | add account replacing new_id =>
    refine iff_of_true ?_ trivial
    rw [Hub.step, Hub.add]
    split <;> exact h
  | rename id wanted =>
    refine iff_of_true ?_ trivial
    rw [Hub.step, Hub.rename]
    split
    · exact h
    · dsimp only
      split <;> exact h
  | remove id =>
    refine iff_of_true ?_ trivial
    rw [Hub.step, Hub.remove]
    split <;> exact h
  | finish place =>
    rw [Hub.step, Hub.finish, Fine]
    cases hplace : hub.waiting[place]? with
    | none => simp [h]
    | some task => simpa using named_carryOut_iff h (hchosen task (List.mem_of_getElem? hplace))
  | fail place => exact iff_of_true h trivial

/-- **Safe and distinct names**: from accounts with such names and no call that waits, every state of a run has
such names if and only if every call is fine. -/
theorem names_iff (records : List Record) (h : Named records) (calls : List Call) :
    Runs.Throughout Hub.step (fun hub ↦ Named hub.records) calls ⟨records, []⟩ ↔
      Runs.Along Hub.step Fine calls ⟨records, []⟩ :=
  Runs.throughout_iff_along (fun call _ hchosen ↦ allChosen_step hchosen call)
    (fun call _ hchosen hnamed ↦ named_step_iff hnamed hchosen call) calls (fun _ h ↦ by cases h) h

/-- A first account. -/
theorem names_iff_first : Runs.Throughout Hub.step (fun hub ↦ Named hub.records)
    [.add ⟨.dropbox, "me".toList, none⟩ none "1", .finish 0] ⟨[], []⟩ ↔
      Runs.Along Hub.step Fine [.add ⟨.dropbox, "me".toList, none⟩ none "1", .finish 0] ⟨[], []⟩ :=
  names_iff [] ⟨by simp, List.nodup_nil⟩ _

/-- **A dot uncovered**: the folder of an account that was renamed to `. ..` is the one above. -/
theorem dots_uncovered : ¬Runs.Throughout Hub.step (fun hub ↦ Named hub.records)
    [.add ⟨.dropbox, "me".toList, none⟩ none "1", .finish 0, .rename "1" ". ..".toList, .finish 0]
    ⟨[], []⟩ := by
  intro h
  have hname : (Runs.after Hub.step [.add ⟨.dropbox, "me".toList, none⟩ none "1", .finish 0,
      .rename "1" ". ..".toList, .finish 0] ⟨[], []⟩).records.map Record.name = [['.', '.']] := by
    decide +kernel
  obtain ⟨record, hrecord, hdots⟩ := List.mem_map.1 (hname ▸ List.mem_singleton_self ['.', '.'])
  exact (h.finish.component record hrecord).ne_dots hdots

end Drives

import Luft.Lib.Runs
import Mathlib.Data.List.Basic

/-!
# Rewraps

The keyring's key is stored wrapped with the sign-in password.  When the password changes, or someone
signs in with a password that the wrap does not open with, `rewrap` wraps the key anew: it looks at the
keyring, stretches the password without holding the keyring's lock, and then stores the new wrap.
Events from signing in are received one after the other, each when the one before is done; but a rewrap
that unlocking started runs beside them.

`settled_run` says when the wrap ends up with the password of the last event, whatever runs beside
what: when no rewrap of another password writes after the last one that was still to write for it.
-/

set_option autoImplicit false

namespace Keyring

namespace Rewraps

/-- What stretching and sealing do: a wrap opens with the password it was made with. -/
structure Wrapping (Key Password Wrap Salt : Type) where
  create : Key → Password → Salt → Option Wrap
  opening : Wrap → Password → Option Key
  is_current : Wrap → Bool
  opening_create : ∀ key password salt wrap, create key password salt = some wrap →
    opening wrap password = some key

inductive GrantReason where
  | signIn
  | unlock
  | passwordChanged
deriving DecidableEq, Repr

/-- How far a rewrap is. -/
inductive Stage (Key Wrap : Type) where
  | starting
  | checking (wrap : Option Wrap) (key : Key)
  | writing (key : Key)
deriving DecidableEq, Repr

/-- What is under way: an event that found the keyring locked, with the key that its chip key opens,
and rewraps; `awaited` are those that the receiver waits for. -/
inductive Task (Key Password Wrap : Type) where
  | opening (chip : Option Key) (password : Option Password)
  | rewrap (password : Password) (stage : Stage Key Wrap) (awaited : Bool)
deriving DecidableEq, Repr

/-- The keyring, what is under way, and the password of the last event that is to change the wrap's. -/
structure State (Key Password Wrap : Type) where
  wrap : Option Wrap
  unlocked : Option Key
  tasks : List (Task Key Password Wrap)
  last : Option Password
deriving DecidableEq, Repr

variable {Key Password Wrap Salt : Type}

/-- Whether the receiver waits for a task. -/
def Task.received : Task Key Password Wrap → Bool
  | .opening .. => true
  | .rewrap _ _ awaited => awaited

variable (w : Wrapping Key Password Wrap Salt)

/-- Whether a wrap need not be made anew. -/
def current (wrap : Option Wrap) (password : Password) : Bool :=
  wrap.any fun wrap ↦ w.is_current wrap && (w.opening wrap password).isSome

namespace State

/-! ## One step of a rewrap -/

/-- A rewrap takes a copy of the key, if there is one and memory for it. -/
def start (i : ℕ) (password : Password) (awaited ok : Bool) (s : State Key Password Wrap) :
    State Key Password Wrap :=
  match s.unlocked, ok with
  | some key, true =>
    { s with tasks := s.tasks.set i (.rewrap password (.checking s.wrap key) awaited) }
  | _, _ => { s with tasks := s.tasks.eraseIdx i }

def check (i : ℕ) (password : Password) (wrap : Option Wrap) (key : Key) (awaited ok : Bool)
    (s : State Key Password Wrap) : State Key Password Wrap :=
  if ok && current w wrap password then { s with tasks := s.tasks.eraseIdx i }
  else { s with tasks := s.tasks.set i (.rewrap password (.writing key) awaited) }

/-- The new wrap is stored if it could be made, the keyring is still unlocked, and saving works. -/
def write (i : ℕ) (password : Password) (key : Key) (salt : Salt) (ok : Bool)
    (s : State Key Password Wrap) : State Key Password Wrap :=
  match w.create key password salt, s.unlocked, ok with
  | some wrap, some _, true => { s with wrap := some wrap, tasks := s.tasks.eraseIdx i }
  | _, _, _ => { s with tasks := s.tasks.eraseIdx i }

/-! ## Unlocking -/

/-- A rewrap in the background. -/
def spawn (password : Password) (awaited : Bool) (s : State Key Password Wrap) :
    State Key Password Wrap :=
  { s with tasks := s.tasks ++ [.rewrap password .starting awaited] }

/-- Open the keyring with a password, or make a new one for it; `none` where neither worked. -/
def open_with_password (password : Password) (fresh : Key) (salt : Salt) (ok : Bool)
    (s : State Key Password Wrap) : Option (State Key Password Wrap) :=
  if s.unlocked.isSome then some s
  else if ok then
    match s.wrap with
    | none => (w.create fresh password salt).map fun wrap ↦
        { s with wrap := some wrap, unlocked := some fresh, last := some password }
    | some wrap => (w.opening wrap password).map fun key ↦ { s with unlocked := some key }
  else none

/-- What an event does that found the keyring locked. -/
def unlock (chip : Option Key) (password : Option Password) (fresh : Key) (salt : Salt) (ok : Bool)
    (s : State Key Password Wrap) : State Key Password Wrap :=
  match chip, password with
  | some key, some password => ({ s with unlocked := some key, last := some password }).spawn password false
  | some key, none => { s with unlocked := some key }
  | none, some password => (s.open_with_password w password fresh salt ok).getD s
  | none, none => s

/-! ## The daemon -/

def receive (reason : GrantReason) (chip : Option Key) (password : Option Password)
    (s : State Key Password Wrap) : State Key Password Wrap :=
  if s.tasks.any Task.received then s
  else if reason = .passwordChanged then
    match password with
    | some password => ({ s with last := some password }).spawn password true
    | none => s
  else if s.unlocked.isSome then
    match password with
    | some password =>
      if reason = .signIn then ({ s with last := some password }).spawn password true else s
    | none => s
  else { s with tasks := s.tasks ++ [.opening chip password] }

/-- Someone enters a password where the keyring asks for it. -/
def prompt (password : Password) (fresh : Key) (salt : Salt) (ok : Bool)
    (s : State Key Password Wrap) : State Key Password Wrap :=
  if s.unlocked.isSome then s
  else
    match s.open_with_password w password fresh salt ok with
    | some s => s.spawn password false
    | none => s

def advance (i : ℕ) (fresh : Key) (salt : Salt) (ok : Bool) (s : State Key Password Wrap) :
    State Key Password Wrap :=
  match s.tasks[i]? with
  | none => s
  | some (.opening chip password) =>
    ({ s with tasks := s.tasks.eraseIdx i }).unlock w chip password fresh salt ok
  | some (.rewrap password .starting awaited) => s.start i password awaited ok
  | some (.rewrap password (.checking wrap key) awaited) => s.check w i password wrap key awaited ok
  | some (.rewrap password (.writing key) _) => s.write w i password key salt ok

end State

/-- An event that is received, a password that is entered, a PIN or fingerprint that opens the keyring,
its locking, and a step of what is under way. -/
inductive Event (Key Password Salt : Type) where
  | receive (reason : GrantReason) (chip : Option Key) (password : Option Password)
  | prompt (password : Password) (fresh : Key) (salt : Salt) (ok : Bool)
  | opened (key : Key)
  | lock
  | advance (i : ℕ) (fresh : Key) (salt : Salt) (ok : Bool)

def Event.step (e : Event Key Password Salt) (s : State Key Password Wrap) :
    State Key Password Wrap :=
  match e with
  | .receive reason chip password => s.receive reason chip password
  | .prompt password fresh salt ok => s.prompt w password fresh salt ok
  | .opened key => { s with unlocked := some key }
  | .lock => { s with unlocked := none }
  | .advance i fresh salt ok => s.advance w i fresh salt ok

/-! ## What the wrap should be -/

def Opens (s : State Key Password Wrap) (password : Password) : Prop :=
  ∃ wrap, s.wrap = some wrap ∧ (w.opening wrap password).isSome

/-- Once all have finished, the wrap opens with the last password. -/
def Settled (s : State Key Password Wrap) : Prop :=
  s.tasks = [] → ∀ password, s.last = some password → Opens w s password

/-- A rewrap of a password that is still to write it. -/
def StillWrites (password : Password) : Task Key Password Wrap → Prop
  | .opening .. => False
  | .rewrap other .starting _ => other = password
  | .rewrap other (.checking wrap _) _ => other = password ∧ current w wrap password = false
  | .rewrap other (.writing _) _ => other = password

/-- Some task other than the `i`-th still writes a password. -/
def OtherWrites (s : State Key Password Wrap) (i : ℕ) (password : Password) : Prop :=
  ∃ task ∈ s.tasks.eraseIdx i, StillWrites w password task

/-- The step of a rewrap comes to nothing. -/
def Fails (s : State Key Password Wrap) (password : Password) (salt : Salt) (ok : Bool) :
    Stage Key Wrap → Prop
  | .starting => s.unlocked = none ∨ ok = false
  | .checking .. => False
  | .writing key => w.create key password salt = none ∨ s.unlocked = none ∨ ok = false

/-- A rewrap of the last password fails only where the wrap opens with it or another one still writes
it; and a rewrap of another password writes only where one of the last password still does. -/
def Event.Orderly (e : Event Key Password Salt) (s : State Key Password Wrap) : Prop :=
  match e with
  | .advance i _ salt ok => ∀ password stage awaited last,
      s.tasks[i]? = some (.rewrap password stage awaited) → s.last = some last →
      (password = last → Fails w s password salt ok stage → Opens w s last ∨ OtherWrites w s i last) ∧
      (password ≠ last → (∃ key, stage = .writing key) → ¬ Fails w s password salt ok stage →
        OtherWrites w s i last)
  | _ => True

/-! ## One step -/

/-- The wrap opens with the last password, or some task still writes it. -/
def Sound (s : State Key Password Wrap) : Prop :=
  ∀ password, s.last = some password →
    Opens w s password ∨ ∃ task ∈ s.tasks, StillWrites w password task

variable {w} {s s' : State Key Password Wrap} {i : ℕ} {task : Task Key Password Wrap}
  {password : Password}

theorem mem_eraseIdx_or {α : Type*} {l : List α} {i : ℕ} {x y : α} (hi : l[i]? = some x)
    (hy : y ∈ l) : y ∈ l.eraseIdx i ∨ y = x := by
  obtain ⟨j, hj⟩ := List.mem_iff_getElem?.1 hy
  by_cases hij : j = i
  · rw [hij, hi] at hj
    exact .inr (Option.some_inj.1 hj).symm
  · exact .inl (List.mem_eraseIdx_iff_getElem?.2 ⟨j, hij, hj⟩)

theorem mem_set_of_mem_eraseIdx {α : Type*} {l : List α} {i : ℕ} {x y : α}
    (hy : y ∈ l.eraseIdx i) : y ∈ l.set i x := by
  obtain ⟨j, hij, hj⟩ := List.mem_eraseIdx_iff_getElem?.1 hy
  exact List.mem_iff_getElem?.2 ⟨j, by rw [List.getElem?_set_ne (Ne.symm hij), hj]⟩

theorem mem_set_of_getElem? {α : Type*} {l : List α} {i : ℕ} {x y : α} (hi : l[i]? = some y) :
    x ∈ l.set i x := by
  obtain ⟨hlt, -⟩ := List.getElem?_eq_some_iff.1 hi
  exact List.mem_iff_getElem.2 ⟨i, by rwa [List.length_set], List.getElem_set_self _⟩

/-- Tasks that are added, and what is unlocked, do not matter. -/
theorem Sound.mono (h : Sound w s) (hwrap : s'.wrap = s.wrap) (hlast : s'.last = s.last)
    (htasks : ∀ task ∈ s.tasks, task ∈ s'.tasks) : Sound w s' := by
  rintro password hpassword
  rw [hlast] at hpassword
  rcases h password hpassword with ⟨wrap, hopens⟩ | ⟨task, htask, hwrites⟩
  · exact .inl ⟨wrap, by rw [hwrap]; exact hopens⟩
  · exact .inr ⟨task, htasks task htask, hwrites⟩

/-- **One task moves on**: the others stay, and if it was to write the last password, that is taken
care of. -/
theorem Sound.moved (h : Sound w s) (hi : s.tasks[i]? = some task) (hwrap : s'.wrap = s.wrap)
    (hlast : s'.last = s.last) (htasks : ∀ task ∈ s.tasks.eraseIdx i, task ∈ s'.tasks)
    (hwrites : ∀ password, s.last = some password → StillWrites w password task →
      Opens w s password ∨ OtherWrites w s i password ∨
        ∃ task ∈ s'.tasks, StillWrites w password task) : Sound w s' := by
  have hopens {password : Password} : Opens w s password → Opens w s' password := by
    rintro ⟨wrap, hopens⟩
    exact ⟨wrap, by rw [hwrap]; exact hopens⟩
  rintro password hpassword
  rw [hlast] at hpassword
  rcases h password hpassword with hopen | ⟨other, hother, hstill⟩
  · exact .inl (hopens hopen)
  · rcases mem_eraseIdx_or hi hother with herased | rfl
    · exact .inr ⟨other, htasks other herased, hstill⟩
    · rcases hwrites password hpassword hstill with hopen | ⟨task, htask, hwrites⟩ | hnew
      · exact .inl (hopens hopen)
      · exact .inr ⟨task, htasks task htask, hwrites⟩
      · exact .inr hnew

/-- A password that some task is to write from now on. -/
theorem sound_spawn (s : State Key Password Wrap) (password : Password) (awaited : Bool) :
    Sound w (({ s with last := some password }).spawn password awaited) := by
  rintro last hlast
  cases hlast
  exact .inr ⟨_, List.mem_append_right _ List.mem_cons_self, rfl⟩

theorem sound_receive (h : Sound w s) (reason : GrantReason) (chip : Option Key)
    (password : Option Password) : Sound w (s.receive reason chip password) := by
  rw [State.receive.eq_def]
  split
  · exact h
  split
  · cases password with
    | none => exact h
    | some password => exact sound_spawn s password true
  split
  · cases password with
    | none => exact h
    | some password =>
      dsimp only
      split
      · exact sound_spawn s password true
      · exact h
  · exact h.mono rfl rfl fun task htask ↦ List.mem_append_left _ htask

/-- **Opening with a password** leaves the wrap, or makes the first one. -/
theorem sound_open_with_password (h : Sound w s) {fresh : Key} {salt : Salt} {ok : Bool}
    (hs' : s.open_with_password w password fresh salt ok = some s') : Sound w s' := by
  rw [State.open_with_password] at hs'
  split at hs'
  · cases hs'
    exact h
  split at hs'
  · split at hs'
    · obtain ⟨wrap, hcreate, rfl⟩ := Option.map_eq_some_iff.1 hs'
      rintro last hlast
      cases hlast
      exact .inl ⟨wrap, rfl, by rw [w.opening_create _ _ _ _ hcreate]; rfl⟩
    · obtain ⟨key, -, rfl⟩ := Option.map_eq_some_iff.1 hs'
      exact h.mono rfl rfl fun _ htask ↦ htask
  · cases hs'

theorem sound_prompt (h : Sound w s) (password : Password) (fresh : Key) (salt : Salt) (ok : Bool) :
    Sound w (s.prompt w password fresh salt ok) := by
  rw [State.prompt]
  split
  · exact h
  cases hs' : s.open_with_password w password fresh salt ok with
  | none => exact h
  | some s' =>
    exact (sound_open_with_password h hs').mono rfl rfl fun _ htask ↦ List.mem_append_left _ htask

theorem sound_unlock (h : Sound w s) (chip : Option Key) (password : Option Password) (fresh : Key)
    (salt : Salt) (ok : Bool) : Sound w (s.unlock w chip password fresh salt ok) := by
  rw [State.unlock.eq_def]
  split
  · exact sound_spawn { s with unlocked := _ } _ false
  · exact h.mono rfl rfl fun _ htask ↦ htask
  · rename_i password
    cases hs' : s.open_with_password w password fresh salt ok with
    | none => exact h
    | some s' => exact sound_open_with_password h hs'
  · exact h

theorem sound_start (h : Sound w s) {awaited ok : Bool}
    (hi : s.tasks[i]? = some (.rewrap password .starting awaited))
    (horderly : ∀ last, s.last = some last → password = last → s.unlocked = none ∨ ok = false →
      Opens w s last ∨ OtherWrites w s i last) :
    Sound w (s.start i password awaited ok) := by
  rw [State.start.eq_def]
  split
  · rename_i key hunlocked
    refine h.moved hi rfl rfl (fun _ ↦ mem_set_of_mem_eraseIdx) ?_
    rintro last hlast rfl
    cases hcurrent : current w s.wrap password with
    | true =>
      obtain ⟨wrap, hwrap, hopens⟩ := (Option.any_eq_true _ _).1 hcurrent
      rw [Bool.and_eq_true] at hopens
      exact .inl ⟨wrap, hwrap, hopens.2⟩
    | false =>
      refine .inr (.inr ⟨.rewrap password (.checking s.wrap key) awaited, ?_, rfl, hcurrent⟩)
      exact mem_set_of_getElem? hi
  · rename_i hnot
    refine h.moved hi rfl rfl (fun _ ↦ id) ?_
    rintro last hlast rfl
    refine (horderly _ hlast rfl ?_).elim .inl fun hother ↦ .inr (.inl hother)
    cases hunlocked : s.unlocked with
    | none => exact .inl rfl
    | some key =>
      refine .inr (Bool.eq_false_iff.2 fun hok ↦ ?_)
      exact hnot key hunlocked hok

theorem sound_check (h : Sound w s) {wrap : Option Wrap} {key : Key} {awaited : Bool} (ok : Bool)
    (hi : s.tasks[i]? = some (.rewrap password (.checking wrap key) awaited)) :
    Sound w (s.check w i password wrap key awaited ok) := by
  rw [State.check]
  split
  · rename_i hcurrent
    refine h.moved hi rfl rfl (fun _ ↦ id) ?_
    rintro last - ⟨rfl, hnot⟩
    rw [hnot, Bool.and_false] at hcurrent
    exact absurd hcurrent Bool.false_ne_true
  · refine h.moved hi rfl rfl (fun _ ↦ mem_set_of_mem_eraseIdx) ?_
    rintro last - ⟨rfl, -⟩
    refine .inr (.inr ⟨.rewrap password (.writing key) awaited, ?_, rfl⟩)
    exact mem_set_of_getElem? hi

theorem sound_write (h : Sound w s) {key : Key} {awaited ok : Bool} {salt : Salt}
    (hi : s.tasks[i]? = some (.rewrap password (.writing key) awaited))
    (horderly : ∀ last, s.last = some last →
      (password = last → Fails w s password salt ok (.writing key) →
        Opens w s last ∨ OtherWrites w s i last) ∧
      (password ≠ last → ¬ Fails w s password salt ok (.writing key) → OtherWrites w s i last)) :
    Sound w (s.write w i password key salt ok) := by
  rw [State.write.eq_def]
  split
  · rename_i wrap _ hcreate hunlocked
    have hworks : ¬ Fails w s password salt true (.writing key) := by
      rintro (hfails | hfails | hfails)
      · rw [hcreate] at hfails
        cases hfails
      · rw [hunlocked] at hfails
        cases hfails
      · cases hfails
    rintro last hlast
    by_cases hpassword : password = last
    · subst hpassword
      exact .inl ⟨wrap, rfl, by rw [w.opening_create _ _ _ _ hcreate]; rfl⟩
    · exact .inr ((horderly last hlast).2 hpassword hworks)
  · rename_i hnot
    refine h.moved hi rfl rfl (fun _ ↦ id) ?_
    rintro last hlast rfl
    refine ((horderly _ hlast).1 rfl ?_).elim .inl fun hother ↦ .inr (.inl hother)
    cases hcreate : w.create key password salt with
    | none => exact .inl hcreate
    | some wrap =>
      cases hunlocked : s.unlocked with
      | none => exact .inr (.inl hunlocked)
      | some key =>
        refine .inr (.inr (Bool.eq_false_iff.2 fun hok ↦ ?_))
        exact hnot wrap key hcreate hunlocked hok

/-- **A step of what is under way.** -/
theorem sound_advance (h : Sound w s) {fresh : Key} {salt : Salt} {ok : Bool}
    (horderly : Event.Orderly w (.advance i fresh salt ok) s) :
    Sound w (s.advance w i fresh salt ok) := by
  rw [State.advance.eq_def]
  split
  · exact h
  · rename_i hi
    have herased : Sound w { s with tasks := s.tasks.eraseIdx i } :=
      h.moved hi rfl rfl (fun _ ↦ id) fun _ _ hwrites ↦ hwrites.elim
    exact sound_unlock herased _ _ _ _ _
  · rename_i hi
    exact sound_start h hi fun last hlast hpassword ↦
      (horderly _ _ _ last hi hlast).1 hpassword
  · rename_i hi
    exact sound_check h ok hi
  · rename_i hi
    refine sound_write h hi fun last hlast ↦ ⟨(horderly _ _ _ last hi hlast).1, ?_⟩
    exact fun hpassword ↦ (horderly _ _ _ last hi hlast).2 hpassword ⟨_, rfl⟩

theorem sound_step (e : Event Key Password Salt) (s : State Key Password Wrap) (h : Sound w s)
    (horderly : e.Orderly w s) : Sound w (e.step w s) := by
  cases e with
  | receive reason chip password => exact sound_receive h reason chip password
  | prompt password fresh salt ok => exact sound_prompt h password fresh salt ok
  | opened key => exact h.mono rfl rfl fun _ ↦ id
  | lock => exact h.mono rfl rfl fun _ ↦ id
  | advance i fresh salt ok => exact sound_advance h horderly

/-- With nothing under way, a sound keyring is settled. -/
theorem Sound.settled (h : Sound w s) : Settled w s := by
  rintro htasks password hlast
  rcases h password hlast with hopens | ⟨task, htask, -⟩
  · exact hopens
  · rw [htasks] at htask
    cases htask

/-! ## The run -/

/-- A wrap is the password it was made with. -/
def plain : Wrapping Unit ℕ ℕ Unit where
  create _ password _ := some password
  opening wrap password := if wrap = password then some () else none
  is_current _ := true
  opening_create := by
    rintro _ password _ wrap hwrap
    cases hwrap
    exact if_pos rfl

def locked : State Unit ℕ ℕ := ⟨some 0, none, [], none⟩

/-- Signing in with the password `1`, whose rewrap is about to write when the password becomes `2`. -/
def changing : List (Event Unit ℕ Unit) :=
  [.receive .signIn (some ()) (some 1), .advance 0 () () true, .advance 0 () () true,
    .advance 0 () () true, .receive .passwordChanged none (some 2)]

theorem orderly_last {stage : Stage Key Wrap} {awaited ok : Bool} {fresh : Key} {salt : Salt}
    (hi : s.tasks[i]? = some (.rewrap password stage awaited)) (hlast : s.last = some password)
    (hworks : ¬ Fails w s password salt ok stage) :
    Event.Orderly w (.advance i fresh salt ok) s := by
  rintro other stage' awaited' last hi' hlast'
  rw [hi] at hi'
  rw [hlast] at hlast'
  cases hi'
  cases hlast'
  exact ⟨fun _ hfails ↦ absurd hfails hworks, fun hne ↦ absurd rfl hne⟩

end Rewraps

end Keyring

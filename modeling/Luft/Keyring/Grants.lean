import Luft.Lib.Mealy
import Luft.Keyring.Daemon

/-!
# Do grants outlive their item?

A grant, a remembered choice and a question to the user are all about one item, but what is kept of
it is only its key.  `Daemon.About` collects what is in force or under way about an item, and
`Faithful` says that none of it applies to another item that has the same key by now.

* No event but the storing of an item can break this (`item_next`, `about_next`): whatever is about
  an item after an event was about it before, or comes from a look at the item itself.
* The storing of an item breaks it exactly when something is in force or under way about the key the
  new item gets (`Daemon.Fresh`).

Inside one collection that does not happen, as numbers are not handed out twice.  But deleting a
collection does not take the grants for its items away, and a collection created later can get the
id of a deleted one (`not_genuine_recreating`).
-/

set_option autoImplicit false

namespace Keyring

/-! ## What is about an item -/

/-- The grants and the remembered permissions for an item. -/
inductive InForce (granted : Granted) (choices : Choices) (n : Named) : Prop
  | grant (grant : Grant) (h : grant ∈ granted) (hn : grant.item = n)
  | choice (choice : Choice) (h : choice ∈ choices) (hallowed : choice.allowed = true)
    (hid : choice.id = entry n.key) (hborn : choice.born = n.born)

/-- The items a request waits for something about. -/
def Stage.names : Stage → List Named
  | .looking pending => [pending]
  | .remembering _ left _ => left
  | _ => []

/-- A request may still come to let its requester use the item by a grant, a choice or a prompt. -/
inductive Authorizing.Pending (a : Authorizing) (n : Named) : Prop
  | rest (d : Decision) (h : (n, d) ∈ a.rest) (hd : d = .confirmItsYou ∨ d = .askTheApp)
  | stage (h : n ∈ a.stage.names)
  | asked (h : n ∈ a.asked)
  | confirmed (h : n ∈ a.confirmed)
  | allowed (permit : Permit) (h : permit ∈ a.allowed) (hground : permit.ground ≠ .own)
    (hn : permit.item = n)

/-- Something is in force or under way about the item. -/
inductive Daemon.About (s : Daemon) (n : Named) : Prop
  | inForce (h : InForce s.granted s.choices n)
  | pending (a : Authorizing) (h : .authorizing a ∈ s.tasks) (hn : a.Pending n)

/-- **Nothing that is about one item applies to another** with the same key. -/
def Faithful (s : Daemon) : Prop :=
  ∀ n, s.About n → ∀ found, s.item n.key = some found → found.born = n.born

/-- A secret that a grant, a choice or a prompt gave away is that of the item it was made for. -/
def Read.Genuine (read : Read) : Prop :=
  read.permit.ground ≠ .own → read.item.born = read.permit.item.born

/-! ## A request on its way -/

namespace Authorizing

variable {a : Authorizing} {granted : Granted} {choices : Choices} {n : Named}

/-- How what is pending in a changed request is accounted for, part by part: it was pending in the
same part before, or the change accounts for it. -/
theorem Pending.of_parts {b : Authorizing} {P : Prop} (h : b.Pending n) (ha : a.Pending n → P)
    (rest : ∀ p ∈ b.rest, p ∈ a.rest)
    (stage : n ∈ b.stage.names → n ∈ a.stage.names ∨ P)
    (asked : n ∈ b.asked → n ∈ a.asked ∨ P)
    (confirmed : n ∈ b.confirmed → n ∈ a.confirmed ∨ P)
    (allowed : ∀ permit ∈ b.allowed, permit ∈ a.allowed ∨
      (permit.ground ≠ .own → permit.item = n → P)) : P := by
  cases h with
  | rest d h hd => exact ha (.rest d (rest _ h) hd)
  | stage h => exact (stage h).elim (fun h ↦ ha (.stage h)) id
  | asked h => exact (asked h).elim (fun h ↦ ha (.asked h)) id
  | confirmed h => exact (confirmed h).elim (fun h ↦ ha (.confirmed h)) id
  | allowed permit h hground hn =>
    rcases allowed permit h with h | h
    · exact ha (.allowed permit h hground hn)
    · exact h hground hn

theorem Pending.of_toConfirm (h : a.toConfirm.Pending n) : a.Pending n := by
  rw [toConfirm] at h
  split at h <;>
  exact h.of_parts id (fun _ ↦ id) (fun h ↦ absurd h List.not_mem_nil) .inl .inl (fun _ ↦ .inl)

theorem Pending.of_toAsk (h : a.toAsk.Pending n) : a.Pending n := by
  rw [toAsk] at h
  split at h
  · exact h.of_toConfirm
  · exact h.of_parts id (fun _ ↦ id) (fun h ↦ absurd h List.not_mem_nil) .inl .inl (fun _ ↦ .inl)

/-- An item that is allowed in addition. -/
theorem mem_allowed_append {allowed : List Permit} {items : List Named} {ground : Ground}
    {permit : Permit} (h : permit ∈ allowed ++ permits items ground) :
    permit ∈ allowed ∨ permit.item ∈ items := by
  rcases List.mem_append.1 h with h | h
  · exact .inl h
  · obtain ⟨item, hitem, rfl⟩ := List.mem_map.1 h
    exact .inr hitem

theorem Pending.of_settle {yes : Bool} (h : (a.settle yes).Pending n) : a.Pending n := by
  refine h.of_toConfirm.of_parts id (fun _ ↦ id) .inl (fun h ↦ absurd h List.not_mem_nil) .inl ?_
  intro permit hpermit
  dsimp only at hpermit
  split at hpermit
  · exact (mem_allowed_append hpermit).imp_right fun h _ hn ↦ .asked (hn ▸ h)
  · exact .inl hpermit

/-- What is about an item after a request went on was about it before. -/
theorem Pending.of_check (h : (a.check granted).Pending n) :
    a.Pending n ∨ InForce granted choices n := by
  rw [check] at h
  split at h
  · exact .inl h
  rename_i pending decision rest hrest
  have hmem : ∀ p ∈ rest, p ∈ a.rest := by
    intro p hp
    rw [hrest]
    exact List.mem_cons_of_mem _ hp
  have hhead : (pending, decision) ∈ a.rest := by
    rw [hrest]
    exact List.mem_cons_self
  -- the decision at the front goes to one of the lists; the other parts are as they were
  dsimp only at h
  split at h
  · rename_i grant hgrant
    refine h.of_parts .inl hmem .inl .inl .inl fun permit hpermit ↦ ?_
    refine (List.mem_append.1 hpermit).imp_right fun hpermit _ hn ↦ .inr ?_
    rw [List.mem_singleton.1 hpermit] at hn
    exact .grant grant (Granted.mem_of_find hgrant).1 hn
  cases decision with
  | allowed =>
    refine h.of_parts .inl hmem .inl .inl .inl fun permit hpermit ↦ ?_
    refine (List.mem_append.1 hpermit).imp_right fun hpermit hground ↦ ?_
    rw [List.mem_singleton.1 hpermit] at hground
    exact absurd rfl hground
  | denied => exact h.of_parts .inl hmem .inl .inl .inl (fun _ ↦ .inl)
  | confirmItsYou =>
    refine h.of_parts .inl hmem .inl .inl (fun hn ↦ ?_) (fun _ ↦ .inl)
    refine (List.mem_append.1 hn).imp_right fun hn ↦ .inl ?_
    rw [List.mem_singleton.1 hn]
    exact .rest _ hhead (.inl rfl)
  | askTheApp =>
    have hpending : a.Pending pending := .rest _ hhead (.inr rfl)
    dsimp only at h
    split at h
    · refine h.of_parts .inl hmem (fun hn ↦ .inr (.inl ?_)) .inl .inl (fun _ ↦ .inl)
      rwa [List.mem_singleton.1 hn]
    · refine h.of_parts .inl hmem .inl (fun hn ↦ ?_) .inl (fun _ ↦ .inl)
      refine (List.mem_append.1 hn).imp_right fun hn ↦ .inl ?_
      rwa [List.mem_singleton.1 hn]

theorem Pending.of_look {pending : Named} {found : Bool} (hstage : a.stage = .looking pending)
    (h : (a.look pending choices found).Pending n) : a.Pending n ∨ InForce granted choices n := by
  have hpending : a.Pending pending := .stage (by rw [hstage]; exact List.mem_singleton_self _)
  rw [look] at h
  dsimp only at h
  split at h
  · refine h.of_parts .inl (fun _ ↦ id) (fun h ↦ absurd h List.not_mem_nil) (fun hn ↦ ?_) .inl
      (fun _ ↦ .inl)
    refine (List.mem_append.1 hn).imp_right fun hn ↦ .inl ?_
    rwa [List.mem_singleton.1 hn]
  · rename_i choice hchoice
    split at h
    · rename_i hallowed
      refine h.of_parts .inl (fun _ ↦ id) (fun h ↦ absurd h List.not_mem_nil) .inl .inl ?_
      intro permit hpermit
      refine (List.mem_append.1 hpermit).imp_right fun hpermit _ hn ↦ .inr ?_
      rw [List.mem_singleton.1 hpermit] at hn
      obtain ⟨app, -, hfind⟩ := Option.bind_eq_some_iff.1 hchoice
      split at hfind
      · obtain ⟨hmem, hid⟩ := Choices.mem_of_find hfind
        exact .choice choice hmem hallowed (by rw [hid, ← hn]) (by rw [← hn])
      · exact absurd hfind (by simp)
    · exact h.of_parts .inl (fun _ ↦ id) (fun h ↦ absurd h List.not_mem_nil) .inl .inl
        (fun _ ↦ .inl)

theorem InForce.of_add {requester : Requester} {items : List Named}
    (h : InForce (granted.add requester items) choices n) :
    n ∈ items ∨ InForce granted choices n := by
  cases h with
  | grant grant h hn => exact (Granted.mem_add h).symm.imp (fun h ↦ hn ▸ h) fun h ↦ .grant grant h hn
  | choice choice h hallowed hid hborn => exact .inr (.choice choice h hallowed hid hborn)

/-- A choice that is remembered about one item is about no other: two keys never share an entry. -/
theorem InForce.of_set {choice : Choice} {m : Named} (hid : choice.id = entry m.key)
    (hborn : choice.born = m.born) (h : InForce granted (choices.set choice) n) :
    n = m ∨ InForce granted choices n := by
  cases h with
  | grant grant h hn => exact .inr (.grant grant h hn)
  | choice other h hallowed hid' hborn' =>
    rcases Choices.mem_set h with rfl | h
    · have hkey : n.key = m.key := entry_injective (hid'.symm.trans hid)
      have hsame : n.born = m.born := hborn'.symm.trans hborn
      obtain ⟨key, born⟩ := n
      obtain ⟨key', born'⟩ := m
      simp only at hkey hsame
      exact .inl (by rw [hkey, hsame])
    · exact .inr (.choice other h hallowed hid' hborn')

theorem Pending.of_remember {allowed remember : Bool}
    (h : (a.remember granted allowed remember).1.Pending n) : a.Pending n := by
  unfold Authorizing.remember at h
  split at h
  · exact h.of_parts id (fun _ ↦ id) (fun h ↦ .inr (.asked h)) .inl .inl (fun _ ↦ .inl)
  · exact h.of_settle

theorem InForce.of_remember {allowed remember : Bool}
    (h : InForce (a.remember granted allowed remember).2 choices n) :
    a.Pending n ∨ InForce granted choices n := by
  unfold Authorizing.remember at h
  split at h
  · exact .inr h
  · dsimp only at h
    split at h
    · exact (InForce.of_add h).imp_left .asked
    · exact .inr h

/-- **A request going on** makes nothing about an item that was not about it before. -/
theorem about_next {reply : Reply}
    (h : (a.next granted choices reply).1.Pending n ∨
      InForce (a.next granted choices reply).2.1 (a.next granted choices reply).2.2 n) :
    a.Pending n ∨ InForce granted choices n := by
  unfold Authorizing.next at h
  split at h
  · -- deciding
    split at h
    · exact h.elim Pending.of_check .inr
    split at h
    · exact h.imp_left fun h ↦ h.of_parts id (fun _ ↦ id) (fun h ↦ absurd h List.not_mem_nil)
        (fun h ↦ absurd h List.not_mem_nil) (fun h ↦ absurd h List.not_mem_nil) (fun _ ↦ .inl)
    · exact h.imp_left Pending.of_toAsk
  · rename_i pending found hstage
    exact h.elim (Pending.of_look hstage) .inr
  · exact h.elim (fun h ↦ .inl h.of_remember) InForce.of_remember
  · exact h.elim (fun h ↦ .inl h.of_remember) InForce.of_remember
  · exact h.imp_left Pending.of_settle
  · -- one choice is saved
    rename_i app item left allowed ok hstage
    have hleft : ∀ m ∈ item :: left, m ∈ a.stage.names := by rw [hstage]; exact fun _ ↦ id
    rcases h with h | h
    · exact .inl (h.of_parts id (fun _ ↦ id)
        (fun h ↦ .inl (hleft _ (List.mem_cons_of_mem item h))) .inl .inl (fun _ ↦ .inl))
    · dsimp only at h
      split at h
      · refine (InForce.of_set rfl rfl h).imp_left ?_
        rintro rfl
        exact .stage (hleft _ List.mem_cons_self)
      · exact .inr h
  · exact h.imp_left Pending.of_settle
  · -- confirming
    split at h
    · rcases h with h | h
      · refine .inl (h.of_parts id (fun _ ↦ id) (fun h ↦ absurd h List.not_mem_nil) .inl
          (fun h ↦ absurd h List.not_mem_nil) fun permit hpermit ↦ ?_)
        exact (mem_allowed_append hpermit).imp_right fun h _ hn ↦ .confirmed (hn ▸ h)
      · exact (InForce.of_add h).imp_left .confirmed
    · exact h.imp_left fun h ↦ h.of_parts id (fun _ ↦ id) (fun h ↦ absurd h List.not_mem_nil) .inl
        (fun h ↦ absurd h List.not_mem_nil) (fun _ ↦ .inl)
  · exact h

end Authorizing

/-! ## What is found under a key after an event -/

namespace Daemon

variable {s : Daemon}

/-- The number a save hands out: that of a new item, not of one that is replaced. -/
def handsOut (c : Contents) (collection : String) (replacing : Option ℕ) : Option ℕ :=
  (c.collection collection).bind fun target ↦
    if (target.items.find? fun existing ↦ some existing.id = replacing).isSome then none
    else some target.nextItem

/-- The key a new item gets from an event, if it stores one. -/
def creates (s : Daemon) (e : Event) : Option ItemKey :=
  if s.locked then none
  else
    match e with
    | .storeItem _ collection _ _ _ _ replacing =>
      (handsOut s.contents collection replacing).map fun n ↦ (collection, n)
    | .addPasskey .. => (handsOut s.contents.withPasskeys PASSKEYS none).map fun n ↦ (PASSKEYS, n)
    | _ => none

theorem handsOut_of_storeItem {c : Contents} {id : String} {item : Item} {replacing : Option ℕ}
    {n : ℕ} (h : (c.storeItem id item replacing).1 = some (n, true)) :
    handsOut c id replacing = some n := by
  rw [Contents.storeItem] at h
  rw [handsOut]
  cases hcollection : c.collection id with
  | none => rw [hcollection] at h; exact absurd h (by simp)
  | some target =>
    rw [hcollection] at h
    dsimp only at h
    rw [Option.bind_some]
    split at h
    · exact absurd h (by simp)
    · rename_i hfind
      rw [hfind]
      exact congrArg some (congrArg Prod.fst (Option.some_inj.1 h))

/-- **The condition**: no item is stored under a key that something is in force or under way
about. -/
def Fresh (s : Daemon) (e : Event) : Prop :=
  ∀ key, s.creates e = some key → ∀ n, s.About n → n.key ≠ key

/-- The contents have nothing under a key that was not there before, as far as `born` tells. -/
def Kept (c c' : Contents) : Prop :=
  ∀ id n found, c'.item id n = some found → ∃ old, c.item id n = some old ∧ old.born = found.born

theorem Kept.of_eq {c c' : Contents} (h : ∀ id n, c'.item id n = c.item id n) : Kept c c' :=
  fun id n found hfound ↦ ⟨found, by rwa [← h], rfl⟩

section edit

variable (s : Daemon) (change : Contents → Contents)

@[simp] theorem edit_locked : (s.edit change).locked = s.locked := by
  rw [edit]
  split <;> rfl

@[simp] theorem edit_granted : (s.edit change).granted = s.granted := by
  rw [edit]
  split <;> rfl

@[simp] theorem edit_choices : (s.edit change).choices = s.choices := by
  rw [edit]
  split <;> rfl

@[simp] theorem edit_tasks : (s.edit change).tasks = s.tasks := by
  rw [edit]
  split <;> rfl

end edit

theorem kept_edit (s : Daemon) {change : Contents → Contents}
    (h : Kept s.contents (change s.contents)) : Kept s.contents (s.edit change).contents := by
  rw [edit]
  split
  · exact Kept.of_eq fun _ _ ↦ rfl
  · exact h

theorem kept_deleteCollection (c : Contents) (id : String) : Kept c (c.deleteCollection id) := by
  intro other n found h
  rw [c.item_deleteCollection] at h
  split at h
  · exact absurd h (by simp)
  · exact ⟨found, h, rfl⟩

theorem kept_deleteItem (c : Contents) (id : String) (m : ℕ) : Kept c (c.deleteItem id m) := by
  intro other n found h
  rw [c.item_deleteItem] at h
  split at h
  · exact absurd h (by simp)
  · exact ⟨found, h, rfl⟩

theorem kept_changeItem (c : Contents) (id : String) (m : ℕ) (change : Change) :
    Kept c (c.changeItem id m change.apply) := by
  intro other n found h
  rw [c.item_changeItem id other m n (fun item ↦ by cases change <;> rfl)] at h
  split at h
  · obtain ⟨old, hold, rfl⟩ := Option.map_eq_some_iff.1 h
    exact ⟨old, hold, by cases change <;> rfl⟩
  · exact ⟨found, h, rfl⟩

theorem kept_perform (s : Daemon) (a : Authorizing) :
    Kept s.contents (s.perform a).2.contents := by
  unfold perform
  split
  · split <;> exact Kept.of_eq fun _ _ ↦ rfl
  · split
    · exact Kept.of_eq fun _ _ ↦ rfl
    · exact s.kept_edit (kept_deleteItem _ _ _)
  · split
    · exact Kept.of_eq fun _ _ ↦ rfl
    · exact s.kept_edit (kept_changeItem _ _ _ _)
  · exact Kept.of_eq fun _ _ ↦ rfl

theorem kept_go (s : Daemon) (i : ℕ) (a : Authorizing) (reply : Reply) :
    Kept s.contents (s.go i a reply).2.contents := by
  unfold go
  split
  · exact kept_perform _ a
  · exact Kept.of_eq fun _ _ ↦ rfl

/-- A save puts nothing new anywhere but under the key the new item gets. -/
theorem item_store {id : String} {item found : Item} {replacing : Option ℕ} {key : ItemKey}
    (h : (s.store id item replacing).item key = some found) :
    (∃ old, s.item key = some old ∧ old.born = found.born) ∨
      (¬ s.locked ∧ handsOut s.contents id replacing = some key.2 ∧ key.1 = id) := by
  have h' : (s.edit fun c ↦ (c.storeItem id { item with born := s.births } replacing).2).item key =
      some found := h
  rw [edit] at h'
  split at h'
  · exact .inl ⟨found, h', rfl⟩
  · rename_i hlocked
    rcases s.contents.item_storeItem h' with hold | ⟨hid, hnumber, -⟩
    · exact .inl hold
    · exact .inr ⟨hlocked, handsOut_of_storeItem hnumber, hid⟩

/-- **What is found under a key after an event** was there before, unless the event stores a new
item under that key. -/
theorem item_next {e : Event} {key : ItemKey} {found : Item}
    (h : (s.next e).2.item key = some found) :
    (∃ old, s.item key = some old ∧ old.born = found.born) ∨ s.creates e = some key := by
  have hkept : ∀ {s' : Daemon}, Kept s.contents s'.contents → s'.item key = some found →
      ∃ old, s.item key = some old ∧ old.born = found.born :=
    fun hkept hfound ↦ hkept key.1 key.2 found hfound
  cases e with
  | createCollection label name =>
    refine .inl (hkept (s.kept_edit ?_) h)
    split
    · exact Kept.of_eq fun _ _ ↦ rfl
    · dsimp only
      split <;> exact Kept.of_eq fun id n ↦ s.contents.item_createCollection label id n
  | setAlias name target => exact .inl (hkept (s.kept_edit (Kept.of_eq fun _ _ ↦ rfl)) h)
  | deleteCollection id =>
    rw [next] at h
    split at h
    · exact .inl ⟨found, h, rfl⟩
    · exact .inl (hkept (s.kept_edit (kept_deleteCollection _ id)) h)
  | storeItem requester collection label attributes secret contentType replacing =>
    refine (item_store h).imp_right ?_
    rintro ⟨hlocked, hnumber, hid⟩
    rw [creates, if_neg hlocked, hnumber, ← hid]
    rfl
  | addPasskey label attributes secret contentType =>
    have hpasskeys : Kept s.contents (s.edit Contents.withPasskeys).contents :=
      s.kept_edit (Kept.of_eq fun id n ↦ s.contents.item_withPasskeys id n)
    rcases item_store h with ⟨old, hold, hborn⟩ | ⟨hlocked, hnumber, hid⟩
    · obtain ⟨older, holder, hborn'⟩ := hpasskeys key.1 key.2 old hold
      exact .inl ⟨older, holder, hborn'.trans hborn⟩
    · right
      have hunlocked : ¬ s.locked := by rwa [edit_locked] at hlocked
      rw [edit, if_neg hunlocked] at hnumber
      rw [creates, if_neg hunlocked]
      dsimp only at hnumber ⊢
      rw [hnumber, ← hid]
      rfl
  | deletePasskey item => exact .inl (hkept (s.kept_edit (kept_deleteItem _ _ _)) h)
  | authorize requester use items ask =>
    rw [next] at h
    split at h <;> exact .inl ⟨found, h, rfl⟩
  | task i reply =>
    rw [next] at h
    split at h
    · exact .inl (hkept (kept_go s i _ reply) h)
    · exact .inl ⟨found, h, rfl⟩
  | removed i ok =>
    rw [next] at h
    split at h <;> exact .inl ⟨found, h, rfl⟩
  | listed i ok =>
    rw [next] at h
    split at h <;> exact .inl ⟨found, h, rfl⟩
  | lock => exact .inl ⟨found, h, rfl⟩
  | unlock => exact .inl ⟨found, h, rfl⟩
  | disconnect connection => exact .inl ⟨found, h, rfl⟩
  | forgetApp app => exact .inl ⟨found, h, rfl⟩
  | restart => exact .inl ⟨found, h, rfl⟩

/-! ## What is about an item after an event -/

variable {s' : Daemon} {n : Named}

theorem About.mono (h : s'.About n) (hgranted : ∀ grant ∈ s'.granted, grant ∈ s.granted)
    (hchoices : ∀ choice ∈ s'.choices, choice ∈ s.choices)
    (htasks : ∀ a, .authorizing a ∈ s'.tasks → .authorizing a ∈ s.tasks) : s.About n := by
  cases h with
  | inForce h =>
    cases h with
    | grant grant h hn => exact .inForce (.grant grant (hgranted grant h) hn)
    | choice choice h hallowed hid hborn =>
      exact .inForce (.choice choice (hchoices choice h) hallowed hid hborn)
  | pending a h hn => exact .pending a (htasks a h) hn

theorem about_edit {change : Contents → Contents} (h : (s.edit change).About n) : s.About n := by
  refine h.mono ?_ ?_ ?_ <;> simp

/-- The clean-up tasks are about no item. -/
theorem about_spawn {task : Task} (htask : ∀ a, task ≠ .authorizing a)
    (h : (s.spawn task).About n) : s.About n := by
  refine h.mono (fun _ ↦ id) (fun _ ↦ id) fun a ha ↦ ?_
  refine (List.mem_append.1 ha).resolve_right fun ha ↦ ?_
  exact htask a (List.mem_singleton.1 ha).symm

theorem about_perform {a : Authorizing} (h : (s.perform a).2.About n) : s.About n := by
  unfold perform at h
  split at h
  · split at h <;> exact h
  · split at h
    · exact h
    · exact about_edit (about_spawn (by simp) h)
  · split at h
    · exact h
    · dsimp only at h
      exact about_edit h
  · exact h

theorem about_go {i : ℕ} {a : Authorizing} {reply : Reply}
    (hi : s.tasks[i]? = some (.authorizing a)) (h : (s.go i a reply).2.About n) : s.About n := by
  have ha : .authorizing a ∈ s.tasks := List.mem_of_getElem? hi
  unfold go at h
  split at h
  · exact (about_perform h).mono (fun _ ↦ id) (fun _ ↦ id) fun a' ha' ↦ List.mem_of_mem_eraseIdx ha'
  · have hnext : (a.next s.granted s.choices reply).1.Pending n ∨
        InForce (a.next s.granted s.choices reply).2.1 (a.next s.granted s.choices reply).2.2 n →
          s.About n :=
      fun h ↦ (Authorizing.about_next h).elim (.pending a ha) .inForce
    cases h with
    | inForce h => exact hnext (.inr h)
    | pending b hb hn =>
      rcases List.mem_or_eq_of_mem_set hb with hb | hb
      · exact .pending b hb hn
      · rw [Task.authorizing.inj hb] at hn
        exact hnext (.inl hn)

theorem about_store {id : String} {item : Item} {replacing : Option ℕ}
    (h : (s.store id item replacing).About n) : s.About n := by
  refine h.mono ?_ ?_ ?_ <;> simp [store]

/-- **What is about an item after an event** was about it before, or comes from a look at the item
under that key. -/
theorem about_next {e : Event} (h : (s.next e).2.About n) :
    s.About n ∨
      (s.creates e = none ∧ ∃ found, s.item n.key = some found ∧ found.born = n.born) := by
  cases e with
  | createCollection label name =>
    dsimp only [next] at h
    exact .inl (about_edit h)
  | setAlias name target =>
    dsimp only [next] at h
    exact .inl (about_edit h)
  | deleteCollection id =>
    rw [next] at h
    split at h
    · exact .inl h
    · exact .inl (about_edit (about_spawn (by simp) h))
  | storeItem requester collection label attributes secret contentType replacing =>
    exact .inl (about_store h)
  | addPasskey label attributes secret contentType => exact .inl (about_edit (about_store h))
  | deletePasskey item =>
    dsimp only [next] at h
    exact .inl (about_edit h)
  | authorize requester use items ask =>
    rw [next] at h
    split at h
    · exact .inl h
    cases h with
    | inForce h => exact .inl (.inForce h)
    | pending a ha hn =>
      rcases List.mem_append.1 ha with ha | ha
      · exact .inl (.pending a ha hn)
      right
      refine ⟨by unfold creates; split <;> rfl, ?_⟩
      rw [Task.authorizing.inj (List.mem_singleton.1 ha)] at hn
      cases hn with
      | rest d hd =>
        obtain ⟨key, -, hkey⟩ := List.mem_filterMap.1 hd
        obtain ⟨found, hfound, heq⟩ := Option.map_eq_some_iff.1 hkey
        rw [← (Prod.mk.inj heq).1]
        exact ⟨found, hfound, rfl⟩
      | stage h => exact absurd h List.not_mem_nil
      | asked h => exact absurd h List.not_mem_nil
      | confirmed h => exact absurd h List.not_mem_nil
      | allowed permit h => exact absurd h List.not_mem_nil
  | task i reply =>
    rw [next] at h
    split at h
    · rename_i a hi
      exact .inl (about_go hi h)
    · exact .inl h
  | removed i ok =>
    rw [next] at h
    split at h
    · refine .inl (h.mono (fun _ ↦ id) (fun choice hchoice ↦ ?_) fun a ha ↦ ?_)
      · dsimp only at hchoice
        split at hchoice
        · exact (List.mem_filter.1 hchoice).1
        · exact hchoice
      · exact (List.mem_or_eq_of_mem_set ha).resolve_right (by simp)
    · exact .inl h
  | listed i ok =>
    rw [next] at h
    split at h
    · exact .inl (h.mono (fun _ ↦ id) (fun _ ↦ id) fun a ha ↦
        (List.mem_or_eq_of_mem_set ha).resolve_right (by simp))
    · exact .inl h
  | lock => exact .inl (h.mono (by simp [next]) (fun _ ↦ id) (fun _ ↦ id))
  | unlock => exact .inl (h.mono (fun _ ↦ id) (fun _ ↦ id) (fun _ ↦ id))
  | disconnect connection =>
    exact .inl (h.mono (fun _ h ↦ (List.mem_filter.1 h).1) (fun _ ↦ id) (fun _ ↦ id))
  | forgetApp app =>
    exact .inl (h.mono (fun _ ↦ id) (fun _ h ↦ (List.mem_filter.1 h).1) (fun _ ↦ id))
  | restart => exact .inl (h.mono (by simp [next]) (fun _ ↦ id) (by simp [next]))

/-- Where nothing applies to another item, what is allowed without asking is allowed by the decision
about the item itself, or by a grant or a choice that was made for it. -/
theorem allowed_of_faithful {requester : Requester} {key : ItemKey} {found : Item}
    (hs : Faithful s) (h : s.allowed requester key) (hfound : s.item key = some found) :
    decide requester found = .allowed ∨ InForce s.granted s.choices ⟨key, found.born⟩ := by
  have hsame : ∀ m : Named, m.key = key → InForce s.granted s.choices m →
      InForce s.granted s.choices ⟨key, found.born⟩ := by
    rintro ⟨key, born⟩ rfl hm
    rwa [hs _ (.inForce hm) found hfound]
  rw [allowed] at h
  split at h
  · rename_i hcontains
    obtain ⟨grant, hgrant⟩ := Option.isSome_iff_exists.1 hcontains
    obtain ⟨hmem, hkey⟩ := Granted.mem_of_find hgrant
    exact .inr (hsame grant.item hkey (.grant grant hmem rfl))
  split at h
  · exact absurd h (by simp)
  rw [hfound] at h
  dsimp only at h
  cases hdecide : decide requester found with
  | allowed => exact .inl rfl
  | denied => rw [hdecide] at h; exact absurd h (by simp)
  | confirmItsYou => rw [hdecide] at h; exact absurd h (by simp)
  | askTheApp =>
    rw [hdecide] at h
    obtain ⟨app, -, hanswer⟩ := Option.bind_eq_some_iff.1 (of_decide_eq_true h)
    obtain ⟨choice, hfind, hallowed⟩ := Option.map_eq_some_iff.1 hanswer
    obtain ⟨hmem, hid⟩ := Choices.mem_of_find hfind
    exact .inr (hsame ⟨key, choice.born⟩ rfl (.choice choice hmem hallowed hid rfl))

/-! ## Whole runs -/

/-- **One event** keeps what is about an item from applying to another, as long as no item is stored
under a key that something is about. -/
theorem faithful_next {e : Event} (hs : Faithful s) (hfresh : s.Fresh e) :
    Faithful (s.next e).2 := by
  intro n hn found hfound
  rcases about_next hn with hn | ⟨hcreates, old', hold', hborn'⟩
  · rcases item_next hfound with ⟨old, hold, hborn⟩ | hcreates
    · rw [← hborn]
      exact hs n hn old hold
    · exact absurd rfl (hfresh n.key hcreates n hn)
  · rcases item_next hfound with ⟨old, hold, hborn⟩ | h
    · rw [← hborn, ← hborn', Option.some_inj.1 (hold'.symm.trans hold)]
    · exact absurd (hcreates.symm.trans h) (by simp)

/-- **What is given away in an event** is the secret of the item the permission was for. -/
theorem genuine_next {e : Event} (hs : Faithful s) : ∀ read ∈ (s.next e).1, read.Genuine := by
  have hnone : ∀ read ∈ ([] : List Read), read.Genuine := by simp
  cases e with
  | task i reply =>
    rw [next]
    split
    · rename_i a hi
      have ha : .authorizing a ∈ s.tasks := List.mem_of_getElem? hi
      unfold go
      split
      · unfold perform
        split
        · split
          · exact hnone
          · rintro read hread hground
            obtain ⟨permit, hpermit, hfound⟩ := List.mem_filterMap.1 hread
            obtain ⟨found, hitem, rfl⟩ := Option.map_eq_some_iff.1 hfound
            exact hs permit.item (.pending a ha (.allowed permit hpermit hground rfl)) found hitem
        · split <;> exact hnone
        · split <;> exact hnone
        · exact hnone
      · exact hnone
    · exact hnone
  | deleteCollection id => rw [next]; split <;> exact hnone
  | authorize requester use items ask => rw [next]; split <;> exact hnone
  | removed i ok => rw [next]; split <;> exact hnone
  | listed i ok => rw [next]; split <;> exact hnone
  | _ => exact hnone

/-- The state after some events, from the start. -/
abbrev after (es : List Event) : Daemon := Mealy.final next start es

/-- The secrets given away in a run. -/
abbrev reads (es : List Event) : List Read := (Mealy.outputs next start es).flatten

theorem faithful_start : Faithful start := by
  intro n h
  cases h with
  | inForce h =>
    cases h with
    | grant grant h => exact absurd h List.not_mem_nil
    | choice choice h => exact absurd h List.not_mem_nil
  | pending a h => exact absurd h List.not_mem_nil

/-- **Grants do not outlive their item** in a run in which no item is stored under a key that a
grant, a remembered permission or a request under way is about: at no moment does any of these
apply to another item than the one it was made for, and no secret of another item is given away. -/
theorem faithful_run {es : List Event} (hfresh : Mealy.Along next Fresh start es) :
    (∀ pre post, es = pre ++ post → Faithful (after pre)) ∧ ∀ read ∈ reads es, read.Genuine := by
  constructor
  · rintro pre post rfl
    exact hfresh.left.invariant (fun s e hs he ↦ faithful_next hs he) faithful_start
  · intro read hread
    obtain ⟨out, hout, hmem⟩ := List.mem_flatten.1 hread
    exact hfresh.outputs (fun out ↦ ∀ read ∈ out, read.Genuine)
      (fun s e hs he ↦ faithful_next hs he) (fun s e hs _ ↦ genuine_next hs) faithful_start
      out hout read hmem

/-! ## A collection that comes back -/

/-- You, at the command line. -/
def you : Requester := { caller := .you, connection := some ":1.1", view := .everything }

/-- An app in a sandbox. -/
def notes : Requester :=
  { caller := .app "org.example.Notes", connection := some ":1.2", view := .everything }

/-- A collection with an item in it, which an app asks for and is allowed. -/
def granting : List Event :=
  [.unlock, .createCollection "Work" "",
    .storeItem you "work" "mail" [] [1] "text/plain" none,
    .authorize notes .read [("work", 1)] true, .task 0 (.go false), .task 0 (.looked true),
    .task 0 (.go false), .task 0 (.answer (.allowed false)), .task 0 (.go false)]

/-- The collection is deleted with all that was remembered about it, and one of the same name takes
its place. -/
def recreating : List Event :=
  [.deleteCollection "work", .listed 0 true, .createCollection "Work" "",
    .storeItem you "work" "bank" [] [2] "text/plain" none]

/-- The app asks again. -/
def asking : List Event :=
  [.authorize notes .read [("work", 1)] true, .task 1 (.go false), .task 1 (.go false),
    .task 1 (.go false)]

theorem fresh_of_creates {e : Event} (h : s.creates e = none) : s.Fresh e := by
  intro key hkey
  exact absurd (h.symm.trans hkey) (by simp)

theorem fresh_of_idle {e : Event} (hgranted : s.granted = []) (hchoices : s.choices = [])
    (htasks : s.tasks = []) : s.Fresh e := by
  intro key _ n hn
  cases hn with
  | inForce h =>
    cases h with
    | grant grant h => exact absurd (hgranted ▸ h) List.not_mem_nil
    | choice choice h => exact absurd (hchoices ▸ h) List.not_mem_nil
  | pending a h => exact absurd (htasks ▸ h) List.not_mem_nil

/-- As long as nothing is deleted the app reads what it was allowed to. -/
theorem faithful_granting :
    (∀ pre post, granting = pre ++ post → Faithful (after pre)) ∧
      ∀ read ∈ reads granting, read.Genuine := by
  refine @faithful_run granting ?_
  refine Mealy.along_cons.2 ⟨fresh_of_creates (by decide +kernel), ?_⟩
  refine Mealy.along_cons.2 ⟨fresh_of_creates (by decide +kernel), ?_⟩
  refine Mealy.along_cons.2 ⟨fresh_of_idle (by decide +kernel) (by decide +kernel)
    (by decide +kernel), ?_⟩
  refine Mealy.along_cons.2 ⟨fresh_of_creates (by decide +kernel), ?_⟩
  refine Mealy.along_cons.2 ⟨fresh_of_creates (by decide +kernel), ?_⟩
  refine Mealy.along_cons.2 ⟨fresh_of_creates (by decide +kernel), ?_⟩
  refine Mealy.along_cons.2 ⟨fresh_of_creates (by decide +kernel), ?_⟩
  refine Mealy.along_cons.2 ⟨fresh_of_creates (by decide +kernel), ?_⟩
  exact Mealy.along_cons.2 ⟨fresh_of_creates (by decide +kernel), Mealy.along_nil⟩

/-- **A grant outlives its item**: the app reads an item nobody allowed it to use. -/
theorem not_genuine_recreating :
    ∃ read ∈ reads (granting ++ recreating ++ asking),
      read.permit.ground = .granted ∧ read.permit.item = ⟨("work", 1), 0⟩ ∧
        read.item.secret = [2] ∧ ¬ read.Genuine := by
  have hread : ∃ read ∈ reads (granting ++ recreating ++ asking),
      read.permit.ground = .granted ∧ read.permit.item = ⟨("work", 1), 0⟩ ∧
        read.item.secret = [2] ∧ read.item.born = 1 := by decide +kernel
  obtain ⟨read, hmem, hground, hpermit, hsecret, hborn⟩ := hread
  refine ⟨read, hmem, hground, hpermit, hsecret, fun hgenuine ↦ ?_⟩
  have hsame := hgenuine (by rw [hground]; decide)
  rw [hborn, hpermit] at hsame
  exact absurd hsame (by decide)

end Daemon

end Keyring

import Luft.Keyring.Grants
import Mathlib.Data.List.Induction

/-!
# Protected secrets

An item is guarded against a requester when its schema is protected or another app in a sandbox
owns it.  The rules let a requester at a guarded item only as its owner, as you, or after a prompt:
a remembered choice never decides about one, as the decision about it is not `askTheApp`
(`not_guarded_of_askTheApp`).

What is decided about an item still has to be about that item when its secret is given away.  The
grants and the requests under way name items by their keys (`Names`), so a run keeps guarded items
safe as long as no new item is stored under such a key, and no item turns into a protected one while
a remembered choice lets a request at it (`Calm`).
-/

set_option autoImplicit false

namespace Keyring

/-! ## Items that are not for everyone -/

/-- The item's schema is protected, or a sandboxed app other than the requester owns it. -/
def Guarded (requester : Requester) (item : Item) : Prop :=
  isProtected item ∨ ∃ app, sandboxedOwner item = some app ∧ requester.caller ≠ .app app

/-- The requester is the sandboxed app that owns the item. -/
def Requester.Owns (requester : Requester) (item : Item) : Prop :=
  ∃ app, requester.caller = .app app ∧ sandboxedOwner item = some app

/-- The same requester again, or the same app or connection. -/
def Requester.Is (requester other : Requester) : Prop :=
  requester = other ∨ ∃ grantee, Grantee.of requester = some grantee ∧
    Grantee.of other = some grantee

section

variable {requester : Requester} {item : Item}

theorem decide_allowed (h : decide requester item = .allowed) :
    requester.caller = .you ∨ requester.Owns item := by
  unfold decide at h
  cases hcaller : requester.caller with
  | you => exact .inl rfl
  | app id =>
    rw [hcaller] at h
    dsimp only at h
    split at h
    · rename_i howner
      exact .inr ⟨id, hcaller, howner⟩
    · split at h
      · cases h
      · split at h <;> cases h
  | unknown =>
    rw [hcaller] at h
    dsimp only at h
    split at h <;> cases h

/-- **No remembered choice is looked up for a guarded item**: only sandboxed apps have them. -/
theorem not_guarded_of_askTheApp (h : decide requester item = .askTheApp)
    (happ : requester.sandboxedApp.isSome) : ¬ Guarded requester item := by
  unfold decide at h
  rw [Requester.sandboxedApp] at happ
  cases hcaller : requester.caller with
  | you =>
    rw [hcaller] at h
    cases h
  | unknown =>
    rw [hcaller] at happ
    cases happ
  | app id =>
    rw [hcaller] at h
    dsimp only at h
    split at h
    · cases h
    · split at h
      · cases h
      · split at h
        · cases h
        · rename_i hprotected howned
          rintro (hguarded | ⟨app, hguarded, -⟩)
          · exact hprotected hguarded
          · exact howned (by rw [hguarded]; rfl)

end

/-! ## Answers in a requester's favor -/

/-- The items that this reply answers a request's prompt about, in its favor. -/
def Authorizing.favored (a : Authorizing) (reply : Reply) : List Named :=
  match a.stage, reply with
  | .asking, .answer (.allowed _) => a.asked
  | .confirming, .confirmed true => a.confirmed
  | _, _ => []

namespace Daemon

/-- Who is answered in favor about which items in an event. -/
def favored (s : Daemon) : Event → List (Requester × Named)
  | .task i reply =>
    match s.tasks[i]? with
    | some (.authorizing a) => (a.favored reply).map fun n ↦ (a.requester, n)
    | _ => []
  | _ => []

/-- The answers in someone's favor since the daemon was last started. -/
def answered (s : Daemon) (es : List Event) : List (Requester × Named) :=
  (es.foldl (fun p e ↦
    ((p.1.next e).2, if e = .restart then [] else p.2 ++ p.1.favored e)) (s, [])).2

end Daemon

/-- Among the answers is one about the item in this requester's favor. -/
def Favored (answers : List (Requester × Named)) (requester : Requester) (n : Named) : Prop :=
  ∃ other, (other, n) ∈ answers ∧ other.Is requester

/-! ## The condition on a run -/

/-- All the items a request names. -/
def Authorizing.names (a : Authorizing) : List Named :=
  a.rest.map Prod.fst ++ a.stage.names ++ a.asked ++ a.confirmed ++ a.allowed.map Permit.item

/-- A remembered choice lets, or may still let, the request at what has this key. -/
inductive Authorizing.Choosing (a : Authorizing) (key : ItemKey) : Prop
  | rest (n : Named) (h : (n, Decision.askTheApp) ∈ a.rest) (hn : n.key = key)
  | looking (n : Named) (h : a.stage = .looking n) (hn : n.key = key)
  | allowed (permit : Permit) (h : permit ∈ a.allowed) (hground : permit.ground = .choice)
    (hn : permit.item.key = key)

namespace Daemon

/-- A grant or a request under way is about this key. -/
def Names (s : Daemon) (key : ItemKey) : Prop :=
  (∃ grant ∈ s.granted, grant.item.key = key) ∨
    ∃ a, .authorizing a ∈ s.tasks ∧ ∃ n ∈ a.names, n.key = key

/-- **The condition**: the event stores no new item under a key that a grant or a request is about,
and protects no item that a remembered choice lets an app's request at. -/
structure Calm (s : Daemon) (e : Event) : Prop where
  fresh : ∀ key, s.creates e = some key → ¬ s.Names key
  plain : ∀ a, .authorizing a ∈ s.tasks → a.requester.sandboxedApp.isSome →
    ∀ key, a.Choosing key → ∀ old found, s.item key = some old →
      (s.next e).2.item key = some found → isProtected found → isProtected old

end Daemon

/-! ## Owners -/

/-- What is under a key before and after has the same owner. -/
def OwnersKept (c c' : Contents) : Prop :=
  ∀ id n old found, c.item id n = some old → c'.item id n = some found → old.owner = found.owner

namespace OwnersKept

/-- What is found afterwards was there before. -/
theorem of_found {c c' : Contents}
    (h : ∀ id n found, c'.item id n = some found → c.item id n = some found) : OwnersKept c c' := by
  intro id n old found hold hfound
  rw [h id n found hfound] at hold
  rw [Option.some_inj.1 hold]

theorem of_eq {c c' : Contents} (h : ∀ id n, c'.item id n = c.item id n) : OwnersKept c c' :=
  of_found fun id n _ hfound ↦ by rwa [← h]

theorem deleteCollection (c : Contents) (id : String) : OwnersKept c (c.deleteCollection id) := by
  refine of_found fun other n found h ↦ ?_
  rw [c.item_deleteCollection] at h
  split at h
  · cases h
  · exact h

theorem deleteItem (c : Contents) (id : String) (m : ℕ) : OwnersKept c (c.deleteItem id m) := by
  refine of_found fun other n found h ↦ ?_
  rw [c.item_deleteItem] at h
  split at h
  · cases h
  · exact h

theorem changeItem (c : Contents) (id : String) (m : ℕ) (change : Change) :
    OwnersKept c (c.changeItem id m change.apply) := by
  intro other n old found hold hfound
  rw [c.item_changeItem id other m n (fun item ↦ by cases change <;> rfl), hold] at hfound
  split at hfound
  · rw [← Option.some_inj.1 hfound]
    cases change <;> rfl
  · rw [Option.some_inj.1 hfound]

theorem storeItem (c : Contents) (id : String) (item : Item) (replacing : Option ℕ) :
    OwnersKept c (c.storeItem id item replacing).2 := by
  rw [Contents.storeItem]
  split
  · exact of_eq fun _ _ ↦ rfl
  · rename_i target hcollection
    split
    · intro other n old found hold hfound
      rw [c.item_update (by exact fun _ ↦ rfl)] at hfound
      split at hfound
      · rename_i hid
        rw [Contents.item, hid, hcollection, Option.bind_some] at hold
        rw [hid, hcollection, Option.bind_some, Collection.item_update _ _ (by exact fun _ ↦ rfl),
          hold] at hfound
        split at hfound
        · rw [← Option.some_inj.1 hfound]
        · rw [Option.some_inj.1 hfound]
      · rw [hold] at hfound
        rw [Option.some_inj.1 hfound]
    · intro other n old found hold hfound
      rw [c.item_update (by exact fun _ ↦ rfl)] at hfound
      split at hfound
      · rename_i hid
        rw [Contents.item, hid, hcollection, Option.bind_some] at hold
        rw [hid, hcollection, Option.bind_some, Collection.item_add, hold, Option.some_or] at hfound
        rw [Option.some_inj.1 hfound]
      · rw [hold] at hfound
        rw [Option.some_inj.1 hfound]

end OwnersKept

namespace Daemon

variable {s : Daemon} {e : Event}

theorem ownersKept_edit (s : Daemon) {change : Contents → Contents}
    (h : OwnersKept s.contents (change s.contents)) :
    OwnersKept s.contents (s.edit change).contents := by
  rw [edit]
  split
  · exact .of_eq fun _ _ ↦ rfl
  · exact h

theorem ownersKept_perform (s : Daemon) (a : Authorizing) :
    OwnersKept s.contents (s.perform a).2.contents := by
  unfold perform
  split
  · split <;> exact .of_eq fun _ _ ↦ rfl
  · split
    · exact .of_eq fun _ _ ↦ rfl
    · exact s.ownersKept_edit (.deleteItem _ _ _)
  · split
    · exact .of_eq fun _ _ ↦ rfl
    · exact s.ownersKept_edit (.changeItem _ _ _ _)
  · exact .of_eq fun _ _ ↦ rfl

/-- **No event gives an item another owner.** -/
theorem ownersKept_next (s : Daemon) (e : Event) :
    OwnersKept s.contents (s.next e).2.contents := by
  cases e with
  | createCollection label name =>
    refine s.ownersKept_edit ?_
    split
    · exact .of_eq fun _ _ ↦ rfl
    · dsimp only
      split <;> exact .of_eq fun id n ↦ s.contents.item_createCollection label id n
  | setAlias name target => exact s.ownersKept_edit (.of_eq fun _ _ ↦ rfl)
  | deleteCollection id =>
    rw [next]
    split
    · exact .of_eq fun _ _ ↦ rfl
    · exact s.ownersKept_edit (.deleteCollection _ id)
  | storeItem requester collection label attributes secret contentType replacing =>
    exact s.ownersKept_edit (.storeItem _ _ _ _)
  | addPasskey label attributes secret contentType =>
    have hsame (id : String) (n : ℕ) :
        (s.edit Contents.withPasskeys).contents.item id n = s.contents.item id n := by
      rw [edit]
      split
      · rfl
      · exact s.contents.item_withPasskeys id n
    intro id n old found hold hfound
    rw [← hsame] at hold
    exact (s.edit Contents.withPasskeys).ownersKept_edit (.storeItem _ _ _ _) id n old found hold
      hfound
  | deletePasskey item => exact s.ownersKept_edit (.deleteItem _ _ _)
  | task i reply =>
    rw [next]
    split
    · unfold go
      split
      · exact ownersKept_perform { s with tasks := s.tasks.eraseIdx i } _
      · exact .of_eq fun _ _ ↦ rfl
    · exact .of_eq fun _ _ ↦ rfl
  | authorize requester use items ask => rw [next]; split <;> exact .of_eq fun _ _ ↦ rfl
  | removed i ok => rw [next]; split <;> exact .of_eq fun _ _ ↦ rfl
  | listed i ok => rw [next]; split <;> exact .of_eq fun _ _ ↦ rfl
  | _ => exact .of_eq fun _ _ ↦ rfl

/-- What is under the key in another state is the item it was, with its owner. -/
def Steady (s s' : Daemon) (key : ItemKey) : Prop :=
  ∀ found, s'.item key = some found →
    ∃ old, s.item key = some old ∧ old.born = found.born ∧ old.owner = found.owner

/-- **What is under a key that is named** stays the item it was, with its owner. -/
theorem Calm.steady (h : s.Calm e) {key : ItemKey} (hkey : s.Names key) :
    s.Steady (s.next e).2 key := by
  intro found hfound
  rcases item_next hfound with ⟨old, hold, hborn⟩ | hcreates
  · exact ⟨old, hold, hborn, s.ownersKept_next e _ _ _ _ hold hfound⟩
  · exact absurd hkey (h.fresh key hcreates)

end Daemon

/-! ## What lets a request at an item -/

namespace Daemon

/-- Under the item's key there is still the item, or nothing. -/
def Same (s : Daemon) (n : Named) : Prop := ∀ found, s.item n.key = some found → found.born = n.born

/-- The requester may have what is under the key for being you or its owner. -/
def Own (s : Daemon) (requester : Requester) (key : ItemKey) : Prop :=
  ∀ found, s.item key = some found → requester.caller = .you ∨ requester.Owns found

/-- What is under the key is not guarded against the requester. -/
def Plain (s : Daemon) (requester : Requester) (key : ItemKey) : Prop :=
  ∀ found, s.item key = some found → ¬ Guarded requester found

/-- A permit is rightly given: where it is about a guarded item, by an answer. -/
def Permitted (s : Daemon) (answers : List (Requester × Named)) (requester : Requester)
    (permit : Permit) : Prop :=
  match permit.ground with
  | .own => s.Own requester permit.item.key
  | .choice => requester.sandboxedApp.isSome ∧ s.Plain requester permit.item.key
  | .granted => s.Same permit.item ∧ Favored answers requester permit.item
  | .prompted => s.Same permit.item ∧ Favored answers requester permit.item

/-- A decision that still holds of the item it is about. -/
structure Decided (s : Daemon) (requester : Requester) (n : Named) (decision : Decision) :
    Prop where
  same : s.Same n
  own : decision = .allowed → s.Own requester n.key
  plain : decision = .askTheApp → requester.sandboxedApp.isSome → s.Plain requester n.key

/-- A grant goes back to an answer, and is about the item that still has the key. -/
structure Answered (s : Daemon) (answers : List (Requester × Named)) (grant : Grant) : Prop where
  same : s.Same grant.item
  answer : ∃ requester, (requester, grant.item) ∈ answers ∧
    Grantee.of requester = some grant.grantee

end Daemon

/-- What is known of a request under way. -/
structure Authorizing.Sound (a : Authorizing) (s : Daemon) (answers : List (Requester × Named)) :
    Prop where
  allowed : ∀ permit ∈ a.allowed, s.Permitted answers a.requester permit
  rest : ∀ p ∈ a.rest, s.Decided a.requester p.1 p.2
  looking : ∀ n, a.stage = .looking n →
    a.requester.sandboxedApp.isSome ∧ s.Decided a.requester n .askTheApp
  asked : ∀ n ∈ a.asked, s.Same n
  confirmed : ∀ n ∈ a.confirmed, s.Same n
  remembering : ∀ app left, a.stage = .remembering app left true →
    ∀ n ∈ a.asked, Favored answers a.requester n

/-- What is known of the daemon. -/
structure Daemon.Sound (s : Daemon) (answers : List (Requester × Named)) : Prop where
  granted : ∀ grant ∈ s.granted, s.Answered answers grant
  tasks : ∀ a, .authorizing a ∈ s.tasks → a.Sound s answers

theorem Favored.mono {answers more : List (Requester × Named)} {requester : Requester} {n : Named}
    (h : Favored answers requester n) : Favored (answers ++ more) requester n := by
  obtain ⟨other, hmem, his⟩ := h
  exact ⟨other, List.mem_append_left _ hmem, his⟩

namespace Daemon.Steady

variable {s s' : Daemon} {key : ItemKey} {requester : Requester} {n : Named}

theorem same (h : s.Steady s' n.key) (hs : s.Same n) : s'.Same n := by
  intro found hfound
  obtain ⟨old, hold, hborn, -⟩ := h found hfound
  rw [← hborn]
  exact hs old hold

theorem own (h : s.Steady s' key) (hs : s.Own requester key) : s'.Own requester key := by
  intro found hfound
  obtain ⟨old, hold, -, howner⟩ := h found hfound
  refine (hs old hold).imp_right ?_
  rintro ⟨app, hcaller, hown⟩
  refine ⟨app, hcaller, ?_⟩
  rw [sandboxedOwner, ← howner]
  exact hown

/-- Not protected by then, it is guarded by its owner only. -/
theorem plain (h : s.Steady s' key) (hs : s.Plain requester key)
    (hplain : ∀ old found, s.item key = some old → s'.item key = some found →
      isProtected found → isProtected old) : s'.Plain requester key := by
  intro found hfound hguarded
  obtain ⟨old, hold, -, howner⟩ := h found hfound
  refine hs old hold ?_
  rcases hguarded with hprotected | ⟨app, happ, hne⟩
  · exact .inl (hplain old found hold hfound hprotected)
  · refine .inr ⟨app, ?_, hne⟩
    rw [sandboxedOwner, howner]
    exact happ

end Daemon.Steady

/-- **A request stays sound** while the items it names stay what they are. -/
theorem Authorizing.Sound.steady {a : Authorizing} {s s' : Daemon}
    {answers more : List (Requester × Named)} (h : a.Sound s answers)
    (hsteady : ∀ n ∈ a.names, s.Steady s' n.key)
    (hplain : a.requester.sandboxedApp.isSome → ∀ key, a.Choosing key → ∀ old found,
      s.item key = some old → s'.item key = some found → isProtected found → isProtected old) :
    a.Sound s' (answers ++ more) := by
  have hnames (n : Named) : n ∈ a.names ↔ n ∈ a.rest.map Prod.fst ∨ n ∈ a.stage.names ∨
      n ∈ a.asked ∨ n ∈ a.confirmed ∨ n ∈ a.allowed.map Permit.item := by
    rw [names, List.mem_append, List.mem_append, List.mem_append, List.mem_append, or_assoc,
      or_assoc, or_assoc]
  refine ⟨fun permit hpermit ↦ ?_, fun p hp ↦ ?_, fun n hn ↦ ?_, fun n hn ↦ ?_, fun n hn ↦ ?_,
    fun app left hstage n hn ↦ ?_⟩
  · have hkey := hsteady permit.item ((hnames _).2
      (.inr (.inr (.inr (.inr (List.mem_map_of_mem hpermit))))))
    have hold := h.allowed permit hpermit
    unfold Daemon.Permitted at hold ⊢
    cases hground : permit.ground with
    | own =>
      rw [hground] at hold
      exact hkey.own hold
    | choice =>
      rw [hground] at hold
      exact ⟨hold.1, hkey.plain hold.2 (hplain hold.1 _ (.allowed permit hpermit hground rfl))⟩
    | granted =>
      rw [hground] at hold
      exact ⟨hkey.same hold.1, hold.2.mono⟩
    | prompted =>
      rw [hground] at hold
      exact ⟨hkey.same hold.1, hold.2.mono⟩
  · have hkey := hsteady p.1 ((hnames _).2 (.inl (List.mem_map_of_mem hp)))
    obtain ⟨hsame, hown, hchoosing⟩ := h.rest p hp
    refine ⟨hkey.same hsame, fun hd ↦ hkey.own (hown hd), fun hd happ ↦ ?_⟩
    refine hkey.plain (hchoosing hd happ) (hplain happ _ (.rest p.1 ?_ rfl))
    rw [← hd]
    exact hp
  · have hkey := hsteady n ((hnames _).2 (.inr (.inl (by rw [hn]; exact List.mem_singleton_self n))))
    obtain ⟨happ, hsame, hown, hchoosing⟩ := h.looking n hn
    refine ⟨happ, hkey.same hsame, fun hd ↦ hkey.own (hown hd), fun hd _ ↦ ?_⟩
    exact hkey.plain (hchoosing hd happ) (hplain happ _ (.looking n hn rfl))
  · exact (hsteady n ((hnames _).2 (.inr (.inr (.inl hn))))).same (h.asked n hn)
  · exact (hsteady n ((hnames _).2 (.inr (.inr (.inr (.inl hn)))))).same (h.confirmed n hn)
  · exact (h.remembering app left hstage n hn).mono

/-! ## A request going on -/

namespace Authorizing.Sound

variable {a : Authorizing} {s : Daemon} {answers : List (Requester × Named)}

theorem mono (h : a.Sound s answers) (more : List (Requester × Named)) :
    a.Sound s (answers ++ more) :=
  h.steady (fun _ _ found hfound ↦ ⟨found, hfound, rfl, rfl⟩) fun _ _ _ old found hold hfound ↦ by
    rw [Option.some_inj.1 (hold.symm.trans hfound)]
    exact id

/-- A request at another stage, one that says nothing about an item. -/
theorem atStage (h : a.Sound s answers) {stage : Stage} (hlooking : ∀ n, stage ≠ .looking n)
    (hremembering : ∀ app left, stage ≠ .remembering app left true) :
    { a with stage }.Sound s answers where
  allowed := h.allowed
  rest := h.rest
  looking n hn := absurd hn (hlooking n)
  asked := h.asked
  confirmed := h.confirmed
  remembering app left hstage := absurd hstage (hremembering app left)

theorem toConfirm (h : a.Sound s answers) : a.toConfirm.Sound s answers := by
  rw [Authorizing.toConfirm]
  split <;> exact h.atStage (by simp) (by simp)

theorem toAsk (h : a.Sound s answers) : a.toAsk.Sound s answers := by
  rw [Authorizing.toAsk]
  split
  · exact h.toConfirm
  · exact h.atStage (by simp) (by simp)

/-- Permits for items that an answer favors. -/
theorem permitted_append {allowed : List Permit} {items : List Named}
    (hallowed : ∀ permit ∈ allowed, s.Permitted answers a.requester permit)
    (hsame : ∀ n ∈ items, s.Same n) (hfavored : ∀ n ∈ items, Favored answers a.requester n) :
    ∀ permit ∈ allowed ++ permits items .prompted, s.Permitted answers a.requester permit := by
  intro permit hpermit
  rcases List.mem_append.1 hpermit with hpermit | hpermit
  · exact hallowed permit hpermit
  · obtain ⟨n, hn, rfl⟩ := List.mem_map.1 hpermit
    exact ⟨hsame n hn, hfavored n hn⟩

theorem settle (h : a.Sound s answers) {yes : Bool}
    (hyes : yes = true → ∀ n ∈ a.asked, Favored answers a.requester n) :
    (a.settle yes).Sound s answers := by
  refine toConfirm (a := { a with
    allowed := if yes then a.allowed ++ permits a.asked .prompted else a.allowed
    asked := [] }) ⟨?_, h.rest, h.looking, fun n hn ↦ (by cases hn), h.confirmed,
      fun _ _ _ n hn ↦ (by cases hn)⟩
  show ∀ permit ∈ (if yes then a.allowed ++ permits a.asked .prompted else a.allowed), _
  split
  · rename_i htrue
    exact permitted_append h.allowed h.asked (hyes htrue)
  · exact h.allowed

theorem check (h : a.Sound s answers) (hstage : a.stage = .deciding)
    (hgranted : ∀ grant ∈ s.granted, s.Answered answers grant) :
    (a.check s.granted).Sound s answers := by
  rw [Authorizing.check]
  split
  · exact h
  rename_i pending decision rest hrest
  have hdecided : s.Decided a.requester pending decision :=
    h.rest (pending, decision) (by rw [hrest]; exact List.mem_cons_self)
  have hleft : ∀ p ∈ rest, s.Decided a.requester p.1 p.2 := by
    intro p hp
    exact h.rest p (by rw [hrest]; exact List.mem_cons_of_mem _ hp)
  have hlooking : ∀ n, a.stage ≠ .looking n := by rw [hstage]; simp
  have hremembering : ∀ app left, a.stage ≠ .remembering app left true := by rw [hstage]; simp
  -- the permit for a grant or for an own item joins the others
  have hpermit (permit : Permit) (hnew : s.Permitted answers a.requester permit) :
      { a with rest, allowed := a.allowed ++ [permit] }.Sound s answers := by
    refine ⟨fun p hp ↦ ?_, hleft, fun n hn ↦ absurd hn (hlooking n), h.asked, h.confirmed,
      fun app left hn ↦ absurd hn (hremembering app left)⟩
    rcases List.mem_append.1 hp with hp | hp
    · exact h.allowed p hp
    · rw [List.mem_singleton.1 hp]
      exact hnew
  dsimp only
  split
  · rename_i grant hgrant
    obtain ⟨hmem, hkey⟩ := Granted.mem_of_find hgrant
    obtain ⟨hsame, other, hanswer, hother⟩ := hgranted grant hmem
    obtain ⟨grantee, hgrantee, hfind⟩ := Option.bind_eq_some_iff.1 hgrant
    have hsomeone := List.find?_some hfind
    simp only [Bool.decide_and, Bool.and_eq_true, decide_eq_true_eq] at hsomeone
    refine hpermit _ ⟨hsame, other, hanswer, .inr ⟨grantee, ?_, hgrantee⟩⟩
    rw [hother, hsomeone.1]
  cases decision with
  | allowed => exact hpermit _ (hdecided.own rfl)
  | denied =>
    exact ⟨h.allowed, hleft, fun n hn ↦ absurd hn (hlooking n), h.asked, h.confirmed,
      fun app left hn ↦ absurd hn (hremembering app left)⟩
  | confirmItsYou =>
    refine ⟨h.allowed, hleft, fun n hn ↦ absurd hn (hlooking n), h.asked, fun n hn ↦ ?_,
      fun app left hn ↦ absurd hn (hremembering app left)⟩
    rcases List.mem_append.1 hn with hn | hn
    · exact h.confirmed n hn
    · rw [List.mem_singleton.1 hn]
      exact hdecided.same
  | askTheApp =>
    dsimp only
    split
    · rename_i happ
      refine ⟨h.allowed, hleft, fun n hn ↦ ?_, h.asked, h.confirmed, fun _ _ hn ↦ (by cases hn)⟩
      cases hn
      exact ⟨happ, hdecided⟩
    · refine ⟨h.allowed, hleft, fun n hn ↦ absurd hn (hlooking n), fun n hn ↦ ?_, h.confirmed,
        fun app left hn ↦ absurd hn (hremembering app left)⟩
      rcases List.mem_append.1 hn with hn | hn
      · exact h.asked n hn
      · rw [List.mem_singleton.1 hn]
        exact hdecided.same

/-- A remembered choice lets an app at what is not guarded against it. -/
theorem look (h : a.Sound s answers) {pending : Named} (hstage : a.stage = .looking pending)
    (found : Bool) : (a.look pending s.choices found).Sound s answers := by
  obtain ⟨happ, hdecided⟩ := h.looking pending hstage
  rw [Authorizing.look]
  dsimp only
  split
  · refine ⟨h.allowed, h.rest, fun n hn ↦ (by cases hn), fun n hn ↦ ?_, h.confirmed,
      fun _ _ hn ↦ (by cases hn)⟩
    rcases List.mem_append.1 hn with hn | hn
    · exact h.asked n hn
    · rw [List.mem_singleton.1 hn]
      exact hdecided.same
  · split
    · refine ⟨fun p hp ↦ ?_, h.rest, fun n hn ↦ (by cases hn), h.asked, h.confirmed,
        fun _ _ hn ↦ (by cases hn)⟩
      rcases List.mem_append.1 hp with hp | hp
      · exact h.allowed p hp
      · rw [List.mem_singleton.1 hp]
        exact ⟨happ, hdecided.plain rfl happ⟩
    · exact h.atStage (by simp) (by simp)

/-- What is granted to the requester in addition goes back to answers in its favor. -/
theorem answered_add {granted : Granted} {requester : Requester} {items : List Named}
    (hgranted : ∀ grant ∈ granted, s.Answered answers grant) (hsame : ∀ n ∈ items, s.Same n)
    (hfavored : ∀ n ∈ items, Favored answers requester n) :
    ∀ grant ∈ granted.add requester items, s.Answered answers grant := by
  intro grant hgrant
  rw [Granted.add] at hgrant
  split at hgrant
  · exact hgranted grant hgrant
  · rename_i grantee hgrantee
    rcases List.mem_append.1 hgrant with hgrant | hgrant
    · obtain ⟨n, hn, rfl⟩ := List.mem_map.1 hgrant
      obtain ⟨other, hmem, his⟩ := hfavored n hn
      refine ⟨hsame n hn, other, hmem, ?_⟩
      rcases his with rfl | ⟨grantee', hother, hsome⟩
      · exact hgrantee
      · rw [hother, ← hsome, hgrantee]
    · exact hgranted grant hgrant

theorem remember (h : a.Sound s answers) (hgranted : ∀ grant ∈ s.granted, s.Answered answers grant)
    {allowed : Bool} (remember : Bool)
    (hyes : allowed = true → ∀ n ∈ a.asked, Favored answers a.requester n) :
    (a.remember s.granted allowed remember).1.Sound s answers ∧
      ∀ grant ∈ (a.remember s.granted allowed remember).2, s.Answered answers grant := by
  unfold Authorizing.remember
  split
  · refine ⟨⟨h.allowed, h.rest, fun n hn ↦ (by cases hn), h.asked, h.confirmed,
      fun app left hn ↦ ?_⟩, hgranted⟩
    cases hn
    exact hyes rfl
  · refine ⟨h.settle hyes, ?_⟩
    dsimp only
    split
    · rename_i htrue
      exact answered_add hgranted h.asked (hyes htrue)
    · exact hgranted

/-- **A request going on** stays sound, and so do the grants, with the answers it gets. -/
theorem next (h : a.Sound s answers) (hgranted : ∀ grant ∈ s.granted, s.Answered answers grant)
    (reply : Reply) :
    (a.next s.granted s.choices reply).1.Sound s
        (answers ++ (a.favored reply).map fun n ↦ (a.requester, n)) ∧
      ∀ grant ∈ (a.next s.granted s.choices reply).2.1,
        s.Answered (answers ++ (a.favored reply).map fun n ↦ (a.requester, n)) grant := by
  have hmore : ∀ n ∈ a.favored reply,
      Favored (answers ++ (a.favored reply).map fun n ↦ (a.requester, n)) a.requester n :=
    fun n hn ↦ ⟨a.requester, List.mem_append_right _ (List.mem_map_of_mem hn), .inl rfl⟩
  replace h := h.mono ((a.favored reply).map fun n ↦ (a.requester, n))
  replace hgranted : ∀ grant ∈ s.granted,
      s.Answered (answers ++ (a.favored reply).map fun n ↦ (a.requester, n)) grant := by
    intro grant hgrant
    obtain ⟨hsame, other, hmem, hother⟩ := hgranted grant hgrant
    exact ⟨hsame, other, List.mem_append_left _ hmem, hother⟩
  generalize (answers ++ (a.favored reply).map fun n ↦ (a.requester, n)) = answers at *
  unfold Authorizing.next
  split
  · rename_i screenLocked hstage
    split
    · exact ⟨h.check hstage hgranted, hgranted⟩
    · split
      · refine ⟨⟨h.allowed, h.rest, fun n hn ↦ (by cases hn), fun n hn ↦ (by cases hn),
          fun n hn ↦ (by cases hn), fun _ _ hn ↦ (by cases hn)⟩, hgranted⟩
      · exact ⟨h.toAsk, hgranted⟩
  · rename_i pending found hstage
    exact ⟨h.look hstage found, hgranted⟩
  · rename_i remember hstage
    refine h.remember hgranted remember fun _ n hn ↦ hmore n ?_
    unfold favored
    rw [hstage]
    exact hn
  · exact h.remember hgranted _ (by simp)
  · exact ⟨h.settle (by simp), hgranted⟩
  · rename_i app item left allowed ok hstage
    refine ⟨⟨h.allowed, h.rest, fun n hn ↦ (by cases hn), h.asked, h.confirmed,
      fun app' left' hn ↦ ?_⟩, hgranted⟩
    cases hn
    exact h.remembering _ _ hstage
  · rename_i app allowed screenLocked hstage
    refine ⟨h.settle fun htrue ↦ ?_, hgranted⟩
    subst htrue
    exact h.remembering _ _ hstage
  · rename_i yes hstage
    split
    · rename_i htrue
      subst htrue
      have hyes : ∀ n ∈ a.confirmed, Favored answers a.requester n := fun n hn ↦ hmore n (by
        unfold favored
        rw [hstage]
        exact hn)
      refine ⟨⟨permitted_append h.allowed h.confirmed hyes, h.rest, fun n hn ↦ (by cases hn),
        h.asked, fun n hn ↦ (by cases hn), fun _ _ hn ↦ (by cases hn)⟩, ?_⟩
      exact answered_add hgranted h.confirmed hyes
    · exact ⟨⟨h.allowed, h.rest, fun n hn ↦ (by cases hn), h.asked, fun n hn ↦ (by cases hn),
        fun _ _ hn ↦ (by cases hn)⟩, hgranted⟩
  · exact ⟨h, hgranted⟩

end Authorizing.Sound

/-! ## An event -/

namespace Daemon

variable {s : Daemon} {e : Event} {answers : List (Requester × Named)}

/-- Grants and requests under way after an event are among those before. -/
def Within (s s' : Daemon) : Prop :=
  (∀ grant ∈ s'.granted, grant ∈ s.granted) ∧
    ∀ a, .authorizing a ∈ s'.tasks → .authorizing a ∈ s.tasks

theorem within_edit (s : Daemon) (change : Contents → Contents) : s.Within (s.edit change) :=
  ⟨by simp, by simp⟩

theorem within_spawn {s s' : Daemon} (h : s.Within s') {task : Task}
    (htask : ∀ a, task ≠ .authorizing a) : s.Within (s'.spawn task) := by
  refine ⟨h.1, fun a ha ↦ ?_⟩
  rcases List.mem_append.1 ha with ha | ha
  · exact h.2 a ha
  · exact absurd (List.mem_singleton.1 ha).symm (htask a)

theorem within_perform (s : Daemon) (a : Authorizing) : s.Within (s.perform a).2 := by
  have hsame : s.Within s := ⟨fun _ ↦ id, fun _ ↦ id⟩
  unfold perform
  split
  · split <;> exact hsame
  · split
    · exact hsame
    · exact within_spawn (s.within_edit _) (by simp)
  · split
    · exact hsame
    · exact s.within_edit _
  · exact hsame

/-- A task that is not a request takes the place of another. -/
theorem within_set {s s' : Daemon} {i : ℕ} {task : Task} (hgranted : s'.granted = s.granted)
    (htasks : s'.tasks = s.tasks.set i task) (htask : ∀ a, task ≠ .authorizing a) :
    s.Within s' := by
  refine ⟨fun grant hgrant ↦ hgranted ▸ hgrant, fun a ha ↦ ?_⟩
  rw [htasks] at ha
  exact (List.mem_or_eq_of_mem_set ha).resolve_right fun heq ↦ htask a heq.symm

/-- **What an event does to grants and requests**: a request goes on, a request is new, or there are
at most those there were. -/
theorem next_cases (s : Daemon) (e : Event) :
    s.Within (s.next e).2 ∨
      (∃ i reply a, e = .task i reply ∧ s.tasks[i]? = some (.authorizing a) ∧
        (s.next e).2 = { s with
          tasks := s.tasks.set i (.authorizing (a.next s.granted s.choices reply).1)
          granted := (a.next s.granted s.choices reply).2.1
          choices := (a.next s.granted s.choices reply).2.2 }) ∨
      ∃ requester use items ask, e = .authorize requester use items ask ∧
        (s.next e).2 = s.spawn (.authorizing
          { requester, use, ask, stage := .deciding, rest := s.decisions requester items
            allowed := [], asked := [], confirmed := [] }) := by
  have hsame : s.Within s := ⟨fun _ ↦ id, fun _ ↦ id⟩
  cases e with
  | createCollection label name => exact .inl (s.within_edit _)
  | setAlias name target => exact .inl (s.within_edit _)
  | deleteCollection id =>
    rw [next]
    split
    · exact .inl hsame
    · exact .inl (within_spawn (s.within_edit _) (by simp))
  | storeItem requester collection label attributes secret contentType replacing =>
    exact .inl (s.within_edit _)
  | addPasskey label attributes secret contentType =>
    exact .inl ⟨by simp [next, store], by simp [next, store]⟩
  | deletePasskey item => exact .inl (s.within_edit _)
  | authorize requester use items ask =>
    rw [next]
    split
    · exact .inl hsame
    · exact .inr (.inr ⟨requester, use, items, ask, rfl, rfl⟩)
  | task i reply =>
    rw [next]
    split
    · rename_i a hi
      unfold go
      split
      · obtain ⟨hgranted, htasks⟩ := within_perform { s with tasks := s.tasks.eraseIdx i } a
        exact .inl ⟨hgranted, fun b hb ↦ List.mem_of_mem_eraseIdx (htasks b hb)⟩
      · exact .inr (.inl ⟨i, reply, a, rfl, hi, rfl⟩)
    · exact .inl hsame
  | removed i ok =>
    rw [next]
    split
    · exact .inl (within_set rfl rfl (by simp))
    · exact .inl hsame
  | listed i ok =>
    rw [next]
    split
    · exact .inl (within_set rfl rfl (by simp))
    · exact .inl hsame
  | lock => exact .inl ⟨by simp [next], fun _ ↦ id⟩
  | unlock => exact .inl hsame
  | disconnect connection => exact .inl ⟨fun _ h ↦ (List.mem_filter.1 h).1, fun _ ↦ id⟩
  | forgetApp app => exact .inl hsame
  | restart => exact .inl ⟨by simp [next], by simp [next]⟩

/-- **A new request** knows what was decided about the items there are. -/
theorem sound_new (s : Daemon) (requester : Requester) (use : Use) (items : List ItemKey)
    (ask : Bool) (answers : List (Requester × Named)) : Authorizing.Sound
      { requester, use, ask, stage := .deciding, rest := s.decisions requester items
        allowed := [], asked := [], confirmed := [] } s answers := by
  refine ⟨fun _ h ↦ (by cases h), fun p hp ↦ ?_, fun _ h ↦ (by cases h), fun _ h ↦ (by cases h),
    fun _ h ↦ (by cases h), fun _ _ h ↦ (by cases h)⟩
  obtain ⟨key, -, hkey⟩ := List.mem_filterMap.1 hp
  obtain ⟨item, hitem, rfl⟩ := Option.map_eq_some_iff.1 hkey
  refine ⟨fun found hfound ↦ ?_, fun hd found hfound ↦ ?_, fun hd happ found hfound ↦ ?_⟩
  · rw [Option.some_inj.1 (hfound.symm.trans hitem)]
  · rw [Option.some_inj.1 (hfound.symm.trans hitem)]
    exact decide_allowed hd
  · rw [Option.some_inj.1 (hfound.symm.trans hitem)]
    exact not_guarded_of_askTheApp hd happ

/-- Only the contents matter for what is known of a request. -/
theorem sound_of_contents {s s' : Daemon} {a : Authorizing} (h : a.Sound s answers)
    (hcontents : s'.contents = s.contents) (more : List (Requester × Named)) :
    a.Sound s' (answers ++ more) := by
  have hitem (key : ItemKey) : s'.item key = s.item key := by rw [item, item, hcontents]
  refine h.steady (fun n _ found hfound ↦ ⟨found, hitem n.key ▸ hfound, rfl, rfl⟩) ?_
  intro _ key _ old found hold hfound
  rw [hitem, hold] at hfound
  rw [Option.some_inj.1 hfound]
  exact id

theorem answered_of_steady {s s' : Daemon} {grant : Grant} (h : s.Answered answers grant)
    (hsteady : s.Steady s' grant.item.key) (more : List (Requester × Named)) :
    s'.Answered (answers ++ more) grant := by
  obtain ⟨hsame, other, hmem, hother⟩ := h
  exact ⟨hsteady.same hsame, other, List.mem_append_left _ hmem, hother⟩

/-- **One event** keeps what is known, with the answers there are then. -/
theorem sound_next (h : s.Sound answers) (hcalm : s.Calm e) :
    (s.next e).2.Sound (if e = .restart then [] else answers ++ s.favored e) := by
  split
  · rename_i hrestart
    subst hrestart
    exact ⟨fun _ hgrant ↦ (by cases hgrant), fun _ ha ↦ (by cases ha)⟩
  have hgrant (grant : Grant) (hmem : grant ∈ s.granted) :
      (s.next e).2.Answered (answers ++ s.favored e) grant :=
    answered_of_steady (h.granted grant hmem) (hcalm.steady (.inl ⟨grant, hmem, rfl⟩)) _
  have htask (a : Authorizing) (ha : .authorizing a ∈ s.tasks) :
      a.Sound (s.next e).2 (answers ++ s.favored e) :=
    (h.tasks a ha).steady (fun n hn ↦ hcalm.steady (.inr ⟨a, ha, n, hn, rfl⟩))
      (hcalm.plain a ha)
  rcases s.next_cases e with hwithin | ⟨i, reply, a, rfl, hi, hnext⟩ |
    ⟨requester, use, items, ask, rfl, hnext⟩
  · exact ⟨fun grant hmem ↦ hgrant grant (hwithin.1 grant hmem),
      fun a ha ↦ htask a (hwithin.2 a ha)⟩
  · have hfavored : s.favored (.task i reply) =
        (a.favored reply).map fun n ↦ (a.requester, n) := by
      rw [favored, hi]
    have ha := List.mem_of_getElem? hi
    obtain ⟨hsound, hgranted⟩ := (h.tasks a ha).next h.granted reply
    rw [← hfavored] at hsound hgranted
    have hcontents : (s.next (.task i reply)).2.contents = s.contents := by rw [hnext]
    have hitem (key : ItemKey) : (s.next (.task i reply)).2.item key = s.item key := by
      rw [item, item, hcontents]
    refine ⟨fun grant hmem ↦ ?_, fun b hb ↦ ?_⟩
    · rw [hnext] at hmem
      have hsteady : s.Steady (s.next (.task i reply)).2 grant.item.key :=
        fun found hfound ↦ ⟨found, hitem _ ▸ hfound, rfl, rfl⟩
      have hanswered := answered_of_steady (hgranted grant hmem) hsteady []
      rwa [List.append_nil] at hanswered
    · rw [hnext] at hb
      rcases List.mem_or_eq_of_mem_set hb with hb | hb
      · exact htask b hb
      · have hnew := sound_of_contents hsound hcontents []
        rw [List.append_nil] at hnew
        rw [Task.authorizing.inj hb]
        exact hnew
  · refine ⟨fun grant hmem ↦ hgrant grant ?_, fun b hb ↦ ?_⟩
    · rw [hnext] at hmem
      exact hmem
    · rw [hnext] at hb
      rcases List.mem_append.1 hb with hb | hb
      · exact htask b hb
      · rw [Task.authorizing.inj (List.mem_singleton.1 hb)]
        exact sound_of_contents (s.sound_new requester use items ask answers)
          (by rw [hnext]; rfl) _

/-! ## Whole runs -/

/-- **What lets a requester at a guarded item**: it is you or the item's owner, or was answered in
favor about this very item. -/
def Entitled (answers : List (Requester × Named)) (requester : Requester) (key : ItemKey)
    (found : Item) : Prop :=
  requester.caller = .you ∨ requester.Owns found ∨ Favored answers requester ⟨key, found.born⟩

/-- **Guarded items are safe**: whoever is allowed one without asking, or given its secret, is
entitled to it. -/
structure Safe (s : Daemon) (answers : List (Requester × Named)) : Prop where
  allowed : ∀ requester key found, s.item key = some found → Guarded requester found →
    s.allowed requester key → Entitled answers requester key found
  read : ∀ i reply a, s.tasks[i]? = some (.authorizing a) →
    ∀ read ∈ (s.next (.task i reply)).1, Guarded a.requester read.item →
      Entitled answers a.requester read.permit.item.key read.item

theorem safe_of_sound (h : s.Sound answers) : s.Safe answers := by
  constructor
  · intro requester key found hfound hguarded hallowed
    rw [allowed] at hallowed
    split at hallowed
    · rename_i hcontains
      obtain ⟨grant, hgrant⟩ := Option.isSome_iff_exists.1 hcontains
      obtain ⟨hmem, rfl⟩ := Granted.mem_of_find hgrant
      obtain ⟨grantee, hgrantee, hfind⟩ := Option.bind_eq_some_iff.1 hgrant
      have hsomeone := List.find?_some hfind
      simp only [Bool.decide_and, Bool.and_eq_true, decide_eq_true_eq] at hsomeone
      obtain ⟨hsame, other, hanswer, hother⟩ := h.granted grant hmem
      refine .inr (.inr ⟨other, ?_, .inr ⟨grantee, by rw [hother, hsomeone.1], hgrantee⟩⟩)
      rw [hsame found hfound]
      exact hanswer
    split at hallowed
    · cases hallowed
    rw [hfound] at hallowed
    dsimp only at hallowed
    cases hdecide : decide requester found with
    | allowed => exact (decide_allowed hdecide).imp_right .inl
    | denied =>
      rw [hdecide] at hallowed
      cases hallowed
    | confirmItsYou =>
      rw [hdecide] at hallowed
      cases hallowed
    | askTheApp =>
      rw [hdecide] at hallowed
      obtain ⟨app, happ, -⟩ := Option.bind_eq_some_iff.1 (of_decide_eq_true hallowed)
      exact absurd hguarded (not_guarded_of_askTheApp hdecide (by rw [happ]; rfl))
  · intro i reply a hi read hread hguarded
    rw [next, hi] at hread
    dsimp only at hread
    unfold go at hread
    split at hread
    · unfold perform at hread
      split at hread
      · split at hread
        · cases hread
        · obtain ⟨permit, hpermit, hitem⟩ := List.mem_filterMap.1 hread
          obtain ⟨found, hfound, rfl⟩ := Option.map_eq_some_iff.1 hitem
          have hfound : s.item permit.item.key = some found := hfound
          have hpermitted := (h.tasks a (List.mem_of_getElem? hi)).allowed permit hpermit
          have hfavored (hsame : s.Same permit.item)
              (hfavored : Favored answers a.requester permit.item) :
              Entitled answers a.requester permit.item.key found := by
            refine .inr (.inr ?_)
            rw [hsame found hfound]
            exact hfavored
          unfold Permitted at hpermitted
          cases hground : permit.ground with
          | own =>
            rw [hground] at hpermitted
            exact (hpermitted found hfound).imp_right .inl
          | choice =>
            rw [hground] at hpermitted
            exact absurd hguarded (hpermitted.2 found hfound)
          | granted =>
            rw [hground] at hpermitted
            exact hfavored hpermitted.1 hpermitted.2
          | prompted =>
            rw [hground] at hpermitted
            exact hfavored hpermitted.1 hpermitted.2
      · split at hread <;> cases hread
      · split at hread <;> cases hread
      · cases hread
    · cases hread

theorem answered_concat (s : Daemon) (es : List Event) (e : Event) :
    s.answered (es ++ [e]) =
      if e = .restart then [] else s.answered es ++ (Mealy.final next s es).favored e := by
  have hstate (es : List Event) (answers : List (Requester × Named)) :
      (es.foldl (fun p e ↦ ((p.1.next e).2, if e = .restart then [] else p.2 ++ p.1.favored e))
        (s, answers)).1 = Mealy.final next s es := by
    induction es using List.reverseRecOn with
    | nil => rfl
    | append_singleton es e ih =>
      rw [List.foldl_concat, Mealy.final_append]
      show (Daemon.next _ e).2 = _
      rw [ih]
      rfl
  rw [answered, List.foldl_concat, ← hstate es []]
  rfl

/-- **Guarded secrets in every calm run** of the daemon, whatever its keyring and the remembered
choices are when it starts. -/
theorem safe_run {s : Daemon} (hgranted : s.granted = []) (htasks : s.tasks = [])
    {es : List Event} (hcalm : Mealy.Along next Calm s es) :
    ∀ pre post, es = pre ++ post → (Mealy.final next s pre).Safe (s.answered pre) := by
  rintro pre post rfl
  replace hcalm := hcalm.left
  refine safe_of_sound ?_
  induction pre using List.reverseRecOn with
  | nil =>
    refine ⟨fun grant hmem ↦ ?_, fun a ha ↦ ?_⟩
    · rw [Mealy.final_nil, hgranted] at hmem
      cases hmem
    · rw [Mealy.final_nil, htasks] at ha
      cases ha
  | append_singleton pre e ih =>
    rw [answered_concat, Mealy.final_append]
    exact sound_next (ih hcalm.left) (hcalm pre e [] rfl)

/-! ## You, and a collection that comes back -/

theorem calm_of_idle (hgranted : s.granted = []) (htasks : s.tasks = []) : s.Calm e := by
  refine ⟨fun key _ ↦ ?_, fun a ha ↦ ?_⟩
  · rintro (⟨grant, hmem, -⟩ | ⟨a, ha, -⟩)
    · rw [hgranted] at hmem
      cases hmem
    · rw [htasks] at ha
      cases ha
  · rw [htasks] at ha
    cases ha

/-- Nothing is stored and no app asks. -/
theorem calm_of_creates (hcreates : s.creates e = none)
    (hnone : ∀ task ∈ s.tasks, (match task with
      | .authorizing a => a.requester.sandboxedApp.isSome
      | _ => false) = false) : s.Calm e := by
  refine ⟨fun key hkey ↦ ?_, fun a ha happ ↦ ?_⟩
  · rw [hcreates] at hkey
    cases hkey
  · exact absurd (happ.symm.trans (hnone _ ha)) (by decide)

/-- You read a secret of the portal. -/
def yours : List Event :=
  [.unlock, .storeItem you "login" "portal" [("xdg:schema", PORTAL_SCHEMA)] [1] "text/plain" none,
    .authorize you .read [("login", 1)] true, .task 0 (.go false), .task 0 (.go false),
    .task 0 (.go false)]

theorem safe_yours : (Mealy.final next start yours).Safe (start.answered yours) := by
  refine safe_run (s := start) rfl rfl ?_ yours [] (List.append_nil _).symm
  refine Mealy.along_cons.2 ⟨calm_of_idle rfl rfl, ?_⟩
  refine Mealy.along_cons.2 ⟨calm_of_idle rfl rfl, ?_⟩
  refine Mealy.along_cons.2 ⟨calm_of_creates (by decide +kernel) (by decide +kernel), ?_⟩
  refine Mealy.along_cons.2 ⟨calm_of_creates (by decide +kernel) (by decide +kernel), ?_⟩
  refine Mealy.along_cons.2 ⟨calm_of_creates (by decide +kernel) (by decide +kernel), ?_⟩
  exact Mealy.along_cons.2 ⟨calm_of_creates (by decide +kernel) (by decide +kernel),
    Mealy.along_nil⟩

/-- The collection of an item that an app was allowed is deleted, and one of the same name takes its
place, with a secret of the portal in it. -/
def replacing : List Event :=
  granting ++ [.deleteCollection "work", .listed 0 true, .createCollection "Work" "",
    .storeItem you "work" "portal" [("xdg:schema", PORTAL_SCHEMA)] [2] "text/plain" none]

/-- **A protected secret is given away**: the app's grant was for the item that is gone. -/
theorem not_safe_replacing : ¬ ∀ (s : Daemon) (es : List Event), s.granted = [] → s.tasks = [] →
    (Mealy.final next s es).Safe (s.answered es) := by
  intro h
  have hsafe := (h start replacing rfl rfl).allowed notes ("work", 1)
    { id := 1, label := "portal", attributes := [("xdg:schema", PORTAL_SCHEMA)], secret := [2]
      contentType := "text/plain", owner := none, born := 1 } (by decide +kernel)
    (.inl (by decide +kernel)) (by decide +kernel)
  have hanswered : start.answered replacing = [(notes, ⟨("work", 1), 0⟩)] := by decide +kernel
  rw [hanswered] at hsafe
  rcases hsafe with hyou | ⟨app, -, howner⟩ | ⟨other, hmem, -⟩
  · cases hyou
  · cases howner
  · have := (Prod.mk.inj (List.mem_singleton.1 hmem)).2
    cases this

end Daemon

end Keyring

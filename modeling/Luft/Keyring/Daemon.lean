import Luft.Keyring.Access

/-!
# The keyring daemon at work

Requests of many clients are served at once, and a request gives way to the others whenever it
waits: for the permission store, for a prompt, for the keyring.  So the daemon is a state with a
list of tasks in it, and an `Event` is what happens between two waits.

* `Authorizing` is a request on its way through `authorize`: the decisions about its items are taken
  from one look at the keyring, then every item is checked against the grants and the remembered
  choices, then the user is asked, and only then the items are used.
* `Task` is such a request, or the clean-up of remembered choices after something was deleted.
* `Daemon.next` is one event; it shows the secrets it gives away.

Clients ask for a deletion or a save and the user may decline, which changes nothing; the events
here are the ones that were let through.  What a save replaces is left open (`replacing`): the
daemon looks for it some time before it saves.  The vault file can always be written.
-/

set_option autoImplicit false

namespace Keyring

/-! ## Requests -/

/-- What made an item allowed: the decision about it, a grant, a remembered choice or a prompt. -/
inductive Ground
  | own
  | granted
  | choice
  | prompted
  deriving DecidableEq, Repr

/-- An item that may be used.  For a grant and a choice `born` is that of the item it was made for,
else that of the item the decision or the prompt was about. -/
structure Permit where
  item : Named
  ground : Ground
  deriving DecidableEq, Repr

inductive Change
  | secret (value : List UInt8) (contentType : String)
  | attributes (attributes : Attributes)
  | label (label : String)
  deriving DecidableEq, Repr

def Change.apply (change : Change) (item : Item) : Item :=
  match change with
  | .secret value type => { item with secret := value, contentType := type }
  | .attributes value => { item with attributes := value }
  | .label value => { item with label := value }

/-- What the items are wanted for: `GetSecret` and `GetSecrets`, `Delete`, the setters of an item,
or only `Unlock`. -/
inductive Use
  | read
  | delete (key : ItemKey)
  | change (key : ItemKey) (change : Change)
  | unlock
  deriving DecidableEq, Repr

inductive Answer
  | allowed (remember : Bool)
  | denied (remember : Bool)
  | dismissed
  deriving DecidableEq, Repr

/-- What a request waits for. -/
inductive Stage
  | deciding
  | looking (pending : Named)
  | asking
  | remembering (app : String) (left : List Named) (allowed : Bool)
  | confirming
  | using
  deriving DecidableEq, Repr

structure Authorizing where
  requester : Requester
  use : Use
  ask : Bool
  stage : Stage
  rest : List (Named × Decision)
  allowed : List Permit
  asked : List Named
  confirmed : List Named
  deriving DecidableEq, Repr

/-- What a request goes on with. -/
inductive Reply
  | go (screenLocked : Bool)
  | looked (found : Bool)
  | answer (answer : Answer)
  | saved (ok : Bool)
  | confirmed (yes : Bool)
  deriving DecidableEq, Repr

namespace Authorizing

def permits (items : List Named) (ground : Ground) : List Permit :=
  items.map fun item ↦ { item, ground }

/-- `if !confirmed.is_empty()` -/
def toConfirm (a : Authorizing) : Authorizing :=
  if a.confirmed = [] then { a with stage := .using } else { a with stage := .confirming }

/-- `if !asked.is_empty()` -/
def toAsk (a : Authorizing) : Authorizing :=
  if a.asked = [] then a.toConfirm else { a with stage := .asking }

/-- The prompt is over. -/
def settle (a : Authorizing) (yes : Bool) : Authorizing :=
  let allowed := if yes then a.allowed ++ permits a.asked .prompted else a.allowed
  toConfirm { a with allowed, asked := [] }

/-- One decision, held against the grants.  Only sandboxed apps have remembered choices. -/
def check (a : Authorizing) (granted : Granted) : Authorizing :=
  match a.rest with
  | [] => a
  | (pending, decision) :: rest =>
    let a := { a with rest }
    match granted.find a.requester pending.key with
    | some grant => { a with allowed := a.allowed ++ [{ item := grant.item, ground := .granted }] }
    | none =>
      match decision with
      | .allowed => { a with allowed := a.allowed ++ [{ item := pending, ground := .own }] }
      | .denied => a
      | .confirmItsYou => { a with confirmed := a.confirmed ++ [pending] }
      | .askTheApp =>
        if a.requester.sandboxedApp.isSome then { a with stage := .looking pending }
        else { a with asked := a.asked ++ [pending] }

/-- The permission store was looked at; without an answer from it nothing is remembered. -/
def look (a : Authorizing) (pending : Named) (choices : Choices) (found : Bool) : Authorizing :=
  let a := { a with stage := .deciding }
  let choice := a.requester.sandboxedApp.bind fun app ↦
    if found then choices.find (entry pending.key) app else none
  match choice with
  | none => { a with asked := a.asked ++ [pending] }
  | some choice =>
    if choice.allowed then
      { a with allowed := a.allowed ++
          [{ item := { key := pending.key, born := choice.born }, ground := .choice }] }
    else a

/-- `remember` -/
def remember (a : Authorizing) (granted : Granted) (allowed remember : Bool) :
    Authorizing × Granted :=
  match a.requester.sandboxedApp, remember with
  | some app, true => ({ a with stage := .remembering app a.asked allowed }, granted)
  | _, _ => (a.settle allowed, if allowed then granted.add a.requester a.asked else granted)

/-- One step of `authorize`, up to the next wait. -/
def next (a : Authorizing) (granted : Granted) (choices : Choices) (reply : Reply) :
    Authorizing × Granted × Choices :=
  match a.stage, reply with
  | .deciding, .go screenLocked =>
    if a.rest ≠ [] then (a.check granted, granted, choices)
    else if ¬ a.ask ∨ screenLocked then
      ({ a with stage := .using, asked := [], confirmed := [] }, granted, choices)
    else (a.toAsk, granted, choices)
  | .looking pending, .looked found => (a.look pending choices found, granted, choices)
  | .asking, .answer (.allowed remember) =>
    ((a.remember granted true remember).1, (a.remember granted true remember).2, choices)
  | .asking, .answer (.denied remember) =>
    ((a.remember granted false remember).1, (a.remember granted false remember).2, choices)
  | .asking, .answer .dismissed => (a.settle false, granted, choices)
  | .remembering app (item :: left) allowed, .saved ok =>
    ({ a with stage := .remembering app left allowed }, granted,
      if ok then choices.set { id := entry item.key, app, allowed, born := item.born }
      else choices)
  | .remembering _ [] allowed, .go _ => (a.settle allowed, granted, choices)
  | .confirming, .confirmed yes =>
    if yes then
      ({ a with
          stage := .using
          allowed := a.allowed ++ permits a.confirmed .prompted
          confirmed := [] },
        granted.add a.requester a.confirmed, choices)
    else ({ a with stage := .using, confirmed := [] }, granted, choices)
  | _, _ => (a, granted, choices)

end Authorizing

/-! ## The daemon -/

inductive Task
  | authorizing (a : Authorizing)
  | listing (collection : String)
  | removing (ids : List String)
  deriving DecidableEq, Repr

structure Daemon where
  contents : Contents
  locked : Bool
  granted : Granted
  choices : Choices
  tasks : List Task
  /-- How many items were ever stored. -/
  births : ℕ
  deriving DecidableEq, Repr

inductive Event
  | createCollection (label name : String)
  | setAlias (name : String) (target : Option String)
  | deleteCollection (id : String)
  | storeItem (requester : Requester) (collection label : String) (attributes : Attributes)
    (secret : List UInt8) (contentType : String) (replacing : Option ℕ)
  | addPasskey (label : String) (attributes : Attributes) (secret : List UInt8)
    (contentType : String)
  | deletePasskey (item : ℕ)
  | authorize (requester : Requester) (use : Use) (items : List ItemKey) (ask : Bool)
  | task (i : ℕ) (reply : Reply)
  | removed (i : ℕ) (ok : Bool)
  | listed (i : ℕ) (ok : Bool)
  | lock
  | unlock
  | disconnect (connection : String)
  | forgetApp (app : String)
  | restart
  deriving DecidableEq, Repr

/-- A secret that is given away: what allowed it, and the item it is of. -/
structure Read where
  permit : Permit
  item : Item
  deriving DecidableEq, Repr

namespace Daemon

/-- A fresh keyring, before the first client. -/
def start : Daemon :=
  { contents := .fresh, locked := true, granted := [], choices := [], tasks := [], births := 0 }

/-- `edit` fails while the keyring is locked. -/
def edit (s : Daemon) (change : Contents → Contents) : Daemon :=
  if s.locked then s else { s with contents := change s.contents }

def spawn (s : Daemon) (task : Task) : Daemon := { s with tasks := s.tasks ++ [task] }

def item (s : Daemon) (key : ItemKey) : Option Item := s.contents.item key.1 key.2

/-- Whether an item is allowed without asking anyone. -/
def allowed (s : Daemon) (requester : Requester) (key : ItemKey) : Bool :=
  if s.granted.contains requester key then true
  else if s.locked then false
  else
    match s.item key with
    | none => false
    | some found =>
      match decide requester found with
      | .allowed => true
      | .askTheApp =>
        (requester.sandboxedApp.bind fun app ↦ s.choices.answer (entry key) app) = some true
      | .denied => false
      | .confirmItsYou => false

/-- The decisions about the items there are. -/
def decisions (s : Daemon) (requester : Requester) (items : List ItemKey) :
    List (Named × Decision) :=
  items.filterMap fun key ↦ (s.item key).map fun found ↦
    ({ key, born := found.born }, decide requester found)

/-- What a request is for, once it has been through `authorize`. -/
def perform (s : Daemon) (a : Authorizing) : List Read × Daemon :=
  match a.use with
  | .read =>
    if s.locked then ([], s)
    else (a.allowed.filterMap fun permit ↦
      (s.item permit.item.key).map fun item ↦ { permit, item }, s)
  | .delete key =>
    if a.allowed = [] ∨ s.locked then ([], s)
    else ([], (s.edit fun c ↦ c.deleteItem key.1 key.2).spawn (.removing [entry key]))
  | .change key change =>
    if a.allowed = [] then ([], s)
    else ([], s.edit fun c ↦ c.changeItem key.1 key.2 change.apply)
  | .unlock => ([], s)

/-- A request goes on. -/
def go (s : Daemon) (i : ℕ) (a : Authorizing) (reply : Reply) : List Read × Daemon :=
  match a.stage with
  | .using => ({ s with tasks := s.tasks.eraseIdx i } : Daemon).perform a
  | _ =>
    let (a', granted, choices) := a.next s.granted s.choices reply
    ([], { s with tasks := s.tasks.set i (.authorizing a'), granted, choices })

def store (s : Daemon) (collection : String) (item : Item) (replacing : Option ℕ) : Daemon :=
  { s.edit fun c ↦ (c.storeItem collection { item with born := s.births } replacing).2 with
    births := s.births + 1 }

def next (s : Daemon) : Event → List Read × Daemon
  | .createCollection label name =>
    ([], s.edit fun c ↦
      if name ≠ "" ∧ (c.resolveAlias name).isSome then c
      else
        let (id, c) := c.createCollection label
        if name ≠ "" then c.setAlias name (some id) else c)
  | .setAlias name target => ([], s.edit fun c ↦ c.setAlias name target)
  | .deleteCollection id =>
    if s.locked then ([], s)
    else ([], (s.edit fun c ↦ c.deleteCollection id).spawn (.listing id))
  | .storeItem requester collection label attributes secret contentType replacing =>
    let item : Item :=
      { id := 0, label, attributes, secret, contentType, owner := requester.owner, born := 0 }
    ([], s.store collection item replacing)
  | .addPasskey label attributes secret contentType =>
    let item : Item := { id := 0, label, attributes, secret, contentType, owner := none, born := 0 }
    ([], (s.edit Contents.withPasskeys).store PASSKEYS item none)
  | .deletePasskey item => ([], s.edit fun c ↦ c.deleteItem PASSKEYS item)
  | .authorize requester use items ask =>
    if s.locked then ([], s)
    else ([], s.spawn (.authorizing
      { requester, use, ask, stage := .deciding, rest := s.decisions requester items
        allowed := [], asked := [], confirmed := [] }))
  | .task i reply =>
    match s.tasks[i]? with
    | some (.authorizing a) => s.go i a reply
    | _ => ([], s)
  | .listed i ok =>
    match s.tasks[i]? with
    | some (.listing collection) =>
      let ids := if ok then
          s.choices.entries.filter fun id ↦ (collection ++ "/").toList.isPrefixOf id.toList
        else []
      ([], { s with tasks := s.tasks.set i (.removing ids) })
    | _ => ([], s)
  | .removed i ok =>
    match s.tasks[i]? with
    | some (.removing (id :: ids)) =>
      ([], { s with
        tasks := s.tasks.set i (.removing ids)
        choices := if ok then s.choices.remove id else s.choices })
    | _ => ([], s)
  | .lock => ([], { s with locked := true, granted := [] })
  | .unlock => ([], { s with locked := false })
  | .disconnect connection => ([], { s with granted := s.granted.forgetConnection connection })
  | .forgetApp app => ([], { s with choices := s.choices.forget app })
  | .restart => ([], { s with locked := true, granted := [], tasks := [] })

end Daemon

end Keyring

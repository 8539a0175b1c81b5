import Luft.Kestrel.Tree
import Mathlib.Data.List.Perm.Basic

/-!
# Keeping the index up to date

A refresh takes what the watches told, and reads the folders again that may have changed: all of them, or those
that were told of and those that cannot be watched.  Reading a folder keeps the children that are still there,
adds new ones as long as there is room, and lets go of the rest.

What the system answers is outside (`World`): the same throughout one refresh, anything from one to the next.
So is the order in which a hash table is gone through.
-/

set_option autoImplicit false

namespace Kestrel

structure Stat where
  is_dir : Bool
  modified : ℤ
  mount : ℕ
  writable : Bool

/-- An entry of a folder: its name, if that is a text, and whether it is a folder, if that can be told. -/
structure DirEntry where
  name : Option Name
  is_dir : Option Bool

/-- What is read from the watches. -/
inductive RawEvent
  | overflow
  | ignored (watch : ℤ)
  | entry (watch : ℤ) (name : Option Name) (edit : Bool)

/-- What the system answers. -/
structure World where
  stat : Path → Option Stat
  read_dir : Path → Option (List DirEntry)
  /-- A folder has each name once. -/
  distinct : ∀ {path entries}, read_dir path = some entries → (entries.filterMap DirEntry.name).Nodup
  /-- The rules of the ignore files in a folder, where they can be read. -/
  gitignore : Path → Bool → Option Gitignore
  add_watch : Path → Option ℤ
  events : List RawEvent
  /-- The order of a hash table. -/
  order : {α : Type} → List α → List α
  order_perm : ∀ {α : Type} (l : List α), (order l).Perm l

def MAX_NODES : ℕ := 2000000

def SKIPPED_FOLDERS : List (List Char) := ["node_modules".toList, "__pycache__".toList, "lost+found".toList]

def CACHE_TAG : List Char := "CACHEDIR.TAG".toList

def REPOSITORY : List Char := ".git".toList

def GIT_IGNORE : List Char := ".gitignore".toList

def IGNORE : List Char := ".ignore".toList

def is_hidden (name : Name) : Bool := name.1.head? = some '.'

def shapes_rules (name : Name) : Bool := name.1 ∈ [REPOSITORY, GIT_IGNORE, IGNORE]

def is_skipped_folder (name : Name) : Bool := name.1 ∈ SKIPPED_FOLDERS

def ignore_files (in_repository : Bool) : List (List Char) := if in_repository then [GIT_IGNORE, IGNORE] else [IGNORE]

/-- When an ignore file of a folder was changed last. -/
def ignore_file_modified (world : World) (dir : Path) (in_repository : Bool) : ℤ :=
  ((((ignore_files in_repository).filterMap fun name ↦ world.stat (dir.push (bytes name))).map Stat.modified).max?).getD 0

def load_ignore_file (world : World) (dir : Path) (in_repository : Bool) : Option IgnoreFile :=
  let modified := ignore_file_modified world dir in_repository
  if modified = 0 then none else (world.gitignore dir in_repository).map fun rules ↦ ⟨modified, rules⟩

/-- The rules of the folders that one is in, the innermost last. -/
abbrev Rules := List Gitignore

namespace Rules

def push (rules : Rules) (file : Option IgnoreFile) : Rules := rules ++ (file.map IgnoreFile.rules).toList

/-- The innermost rules that say something of a path. -/
def ignores (rules : Rules) (path : Path) (is_dir : Bool) : Bool :=
  (rules.reverse.findSome? fun rules ↦
    match rules path is_dir with
    | .ignore => some true
    | .whitelist => some false
    | .none => none).getD false

end Rules

/-! ## Reading a folder -/

/-- The children that a folder had, by name. -/
abbrev Known := List (Name × Id)

/-- As a hash table: the last one of a name stays. -/
def known (tree : Tree) (previous : List Id) : Known :=
  previous.foldl (fun known child ↦ known.filter (·.1 ≠ tree.name child) ++ [(tree.name child, child)]) []

/-- What is found in a folder. -/
structure Found where
  entries : List (Name × Bool)
  repository : Bool
  excluded : Bool

def found (entries : List DirEntry) : Found where
  entries := (entries.filterMap fun entry ↦
    match entry.name, entry.is_dir with
    | some name, some is_dir => some (name, is_dir)
    | _, _ => none).filter fun entry ↦ !is_hidden entry.1
  repository := (entries.filterMap DirEntry.name).any fun name ↦ name.1 = REPOSITORY
  excluded := (entries.filterMap DirEntry.name).any fun name ↦ name.1 = CACHE_TAG

namespace Tree

variable (world : World) (room : ℕ)

/-- The files in a folder whose names are told of have changed. -/
def touch (id : Id) (touched : Name → Bool) (tree : Tree) : Tree :=
  match tree.folder id with
  | none => tree
  | some folder =>
    { tree with
      changes.files := tree.changes.files ++
        folder.children.filter fun child ↦ tree.is_file child && touched (tree.name child) }

/-- A folder is watched, or is looked at on each pass. -/
def watch (id : Id) (path : Path) (tree : Tree) : Option Tree := do
  let folder ← tree.folder id
  if folder.watch.isSome then some tree
  else
    let (watch, watcher) := tree.watcher.watch (world.add_watch path) id
    let tree := { tree with watcher }.setFolder id { folder with watch }
    if watch.isNone then some { tree with polled := if id ∈ tree.polled then tree.polled else tree.polled ++ [id] }
    else
      let tree := { tree with polled := tree.polled.filter (· ≠ id) }
      some (if folder.read.isSome then tree.touch id fun _ ↦ true else tree)

/-- How far the listing of a folder has come. -/
structure Listing where
  known : Known
  children : List Id
  changed : Bool
  tree : Tree

/-- A new child, if there is room and it can be looked at. `none` ends the listing. -/
def create (id : Id) (path : Path) (name : Name) (is_dir : Bool) (listing : Listing) : Option Listing :=
  if MAX_NODES ≤ listing.tree.live then none
  else
    match world.stat (path.push (bytes name.1)) with
    | none => some listing
    | some info =>
      if is_dir && !info.writable then some listing
      else
        let (child, tree) := listing.tree.allocate
          ⟨id, name, info.modified, if is_dir then .folder .default else .file⟩
        let tree := if is_dir then tree else { tree with changes.files := tree.changes.files ++ [child] }
        some { listing with children := listing.children ++ [child], changed := true, tree }

/-- What was found is compared with what was known. -/
def listAll (id : Id) (path : Path) : List (Name × Bool) → Listing → Option Listing
  | [], listing => some listing
  | (name, is_dir) :: found, listing => do
    match listing.known.lookup name with
    | some child =>
      let listing := { listing with known := listing.known.filter (·.1 ≠ name) }
      if (listing.tree.folder child).isSome = is_dir then
        listAll id path found { listing with children := listing.children ++ [child] }
      else
        let tree ← discard room child (path.push (bytes name.1)) listing.tree
        match create world id path name is_dir { listing with tree } with
        | none => some { listing with tree }
        | some listing => listAll id path found listing
    | none =>
      match create world id path name is_dir listing with
      | none => some listing
      | some listing => listAll id path found listing

/-- The entries of a folder that are not ignored. -/
def wanted (path : Path) (rules : Rules) (found : Found) : List (Name × Bool) :=
  (if found.excluded then [] else found.entries).filter fun entry ↦
    !(entry.2 && is_skipped_folder entry.1) && !rules.ignores (path.push (bytes entry.1.1)) entry.2

def read (id : Id) (path : Path) (rules : Rules) (in_repository : Bool) (modified : ℤ) (tree : Tree) :
    Option (Bool × Tree) := do
  let tree ← tree.watch world id path
  match world.read_dir path with
  | none => some (false, tree)
  | some entries =>
    let found := found entries
    let ignore := load_ignore_file world path (in_repository || found.repository)
    let wanted := wanted path (rules.push ignore) found
    let folder ← tree.folder id
    let listing ← listAll world room id path wanted
      ⟨known tree folder.children, [], false, tree.setFolder id { folder with children := [] }⟩
    let gone := world.order listing.known
    let tree ← gone.foldlM (fun tree entry ↦ discard room entry.2 (path.push (bytes entry.1.1)) tree) listing.tree
    let folder ← tree.folder id
    let changed := listing.changed || !gone.isEmpty || folder.excluded != found.excluded
    some (changed, tree.setFolder id
      { folder with
        children := listing.children
        excluded := found.excluded
        read := some modified
        repository := found.repository
        ignore })

/-! ## Visiting -/

/-- The folders in a folder that are to be visited. -/
def due (folder : Folder) (again : Bool) (tree : Tree) : List Id :=
  folder.children.filter fun child ↦
    match tree.folder child with
    | some folder => again || folder.read.isNone
    | none => false

/-- The folders in a folder are visited, once it was read if it had to be. -/
def enter (visit : Id → Path → Rules → Bool → Tree → Option (Bool × Tree)) (id : Id) (path : Path) (rules : Rules)
    (in_repository again : Bool) (state : Bool × Tree) : Option (Bool × Tree) :=
  match (state.2.folder id).filter fun folder ↦ !folder.excluded with
  | none => some state
  | some folder =>
    (state.2.due folder again).foldlM (fun state child ↦
      (visit child (path.push (bytes (state.2.name child).1)) (rules.push folder.ignore)
        (in_repository || folder.repository) state.2).map fun next ↦ (state.1 || next.1, next.2)) state

/-- A folder is visited, with the folders in it. -/
def visit : ℕ → Id → Path → Rules → Bool → Bool → Bool → Tree → Option (Bool × Tree)
  | 0, _, _, _, _, _, _, _ => none
  | fuel + 1, id, path, rules, in_repository, force, everything, tree =>
    match (world.stat path).filter fun info ↦ info.is_dir && info.mount = tree.mount with
    | none => (detach room id path tree).map fun tree ↦ (true, tree)
    | some info => do
      let folder ← tree.folder id
      let force := force || (everything && folder.read.isSome &&
        ignore_file_modified world path (in_repository || folder.repository) !=
          (folder.ignore.map IgnoreFile.modified).getD 0)
      (if force || folder.read != some info.modified then
          tree.read world room id path rules in_repository info.modified
        else some (false, tree)).bind
        (enter (fun child path rules in_repository tree ↦ visit fuel child path rules in_repository force everything tree)
          id path rules in_repository (everything || force))

/-! ## A refresh -/

def read_folder (id : Id) (tree : Tree) : Option Folder := (tree.folder id).filter fun folder ↦ folder.read.isSome

/-- The folders that one is in, the innermost first. -/
def ancestors (tree : Tree) : ℕ → Id → Option (List Id)
  | 0, _ => none
  | fuel + 1, at_ => if at_ = ROOT then some [] else (ancestors tree fuel (tree.parent at_)).map (tree.parent at_ :: ·)

/-- The path of a node, the rules of the folders it is in, and whether one is in a repository. -/
def context (id : Id) (tree : Tree) : Option (Path × Rules × Bool) := do
  let ancestors ← tree.ancestors room id
  let folders := ancestors.reverse.filterMap tree.folder
  let names := ((id :: ancestors).filter (· ≠ ROOT)).reverse.map tree.name
  some (names.foldl (fun path name ↦ path.push (bytes name.1)) tree.root,
    folders.foldl (fun rules folder ↦ rules.push folder.ignore) [], folders.any Folder.repository)

def revisit (fuel : ℕ) (id : Id) (force everything : Bool) (tree : Tree) : Option Tree :=
  if !everything && (tree.read_folder id).isNone then some tree
  else do
    let (path, rules, in_repository) ← tree.context room id
    let (changed, tree) ← visit world room fuel id path rules in_repository force everything tree
    some { tree with changes.names := tree.changes.names || changed }

structure Pending where
  lost : Bool
  folders : List (Id × Bool)
  edits : List (Id × List Name)
  unwatched : List Id

/-- A folder is to be visited; `force` stays. -/
def Pending.visit (pending : Pending) (folder : Id) (force : Bool) : Pending :=
  { pending with
    folders :=
      match pending.folders.lookup folder with
      | some forced => pending.folders.filter (·.1 ≠ folder) ++ [(folder, forced || force)]
      | none => pending.folders ++ [(folder, force)] }

def Pending.edit (pending : Pending) (folder : Id) (name : Name) : Pending :=
  { pending with
    edits := pending.edits.filter (·.1 ≠ folder) ++ [(folder, (pending.edits.lookup folder).getD [] ++ [name])] }

/-- One event: a watch that is gone is forgotten. -/
def drainOne (state : Watcher × Pending) (event : RawEvent) : Watcher × Pending :=
  let (watcher, pending) := state
  match event with
  | .overflow => (watcher, { pending with lost := true })
  | .ignored watch =>
    match watcher.folders watch with
    | some folder =>
      ({ watcher with folders := Function.update watcher.folders watch none },
        { pending with unwatched := pending.unwatched ++ [folder] })
    | none => state
  | .entry watch name edit =>
    match watcher.folders watch, name with
    | some folder, some name =>
      if shapes_rules name then (watcher, pending.visit folder true)
      else if is_hidden name then state
      else if edit then (watcher, pending.edit folder name)
      else (watcher, pending.visit folder false)
    | _, _ => state

def pending (tree : Tree) : Pending × Tree :=
  let (watcher, pending) :=
    (if tree.watcher.inotify then world.events else []).foldl drainOne (tree.watcher, ⟨false, [], [], []⟩)
  (pending, { tree with watcher })

/-- A folder is not watched any more. -/
def unwatched (tree : Tree) (id : Id) : Tree :=
  match tree.read_folder id with
  | none => tree
  | some folder =>
    let tree := tree.setFolder id { folder with watch := none }
    { tree with polled := if id ∈ tree.polled then tree.polled else tree.polled ++ [id] }

def refresh (fuel : ℕ) (tree : Tree) : Option (Changes × Tree) := do
  let (pending, tree) := tree.pending world
  let tree := pending.unwatched.foldl unwatched tree
  let tree ←
    if pending.lost || (tree.read_folder ROOT).isNone then
      revisit world room fuel ROOT false true { tree with changes.everything := true }
    else do
      let tree ← (world.order pending.folders).foldlM
        (fun tree entry ↦ revisit world room fuel entry.1 entry.2 false tree) tree
      let tree ← (world.order tree.polled).foldlM
        (fun tree folder ↦ (revisit world room fuel folder false false tree).map (touch folder fun _ ↦ true)) tree
      some ((world.order pending.edits).foldl (fun tree entry ↦ tree.touch entry.1 fun name ↦ name ∈ entry.2) tree)
  some (tree.changes, { tree with changes := .default })

end Tree

end Kestrel

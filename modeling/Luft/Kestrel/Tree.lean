import Mathlib.Data.Int.Notation
import Mathlib.Data.List.Basic
import Mathlib.Logic.Function.Basic

/-!
# The folders and files that are known

The index keeps one node for each file and folder under the home folder.  Nodes are told by their place,
and the places of nodes that are gone are used again.  A folder lists its children; a node knows the folder
that lists it.

Removing a folder removes all that is in it.  `remove` takes `fuel` for how deep it goes, and gives nothing
where that does not do.
-/

set_option autoImplicit false

namespace Kestrel

abbrev Id := ℕ

def ROOT : Id := 0

/-- The name of a file, or of none. -/
abbrev Name := { text : List Char // '\x00' ∉ text }

def Name.empty : Name := ⟨[], List.not_mem_nil⟩

/-- A path, in bytes. -/
abbrev Path := List UInt8

def bytes (text : List Char) : List UInt8 := text.flatMap String.utf8EncodeChar

def separator : UInt8 := 0x2f

/-- A path with one more part. -/
def Path.push (path : Path) (part : List UInt8) : Path :=
  if path = [] ∨ path.getLast? = some separator then path ++ part else path ++ separator :: part

/-- What ignore files say of a path. -/
inductive Match
  | none
  | ignore
  | whitelist
  deriving DecidableEq

abbrev Gitignore := Path → Bool → Match

structure IgnoreFile where
  modified : ℤ
  rules : Gitignore

structure Folder where
  children : List Id
  excluded : Bool
  /-- When it was changed, as it was last read. -/
  read : Option ℤ
  repository : Bool
  ignore : Option IgnoreFile
  watch : Option ℤ

def Folder.default : Folder := ⟨[], false, none, false, none, none⟩

inductive Kind
  | free
  | file
  | folder (folder : Folder)

structure Node where
  parent : Id
  name : Name
  modified : ℤ
  kind : Kind

/-- The folders that are watched, by their watches. -/
structure Watcher where
  /-- Whether folders can be watched at all. -/
  inotify : Bool
  folders : ℤ → Option Id

namespace Watcher

/-- `added` is the watch that the system gives for the path. -/
def watch (watcher : Watcher) (added : Option ℤ) (folder : Id) : Option ℤ × Watcher :=
  if watcher.inotify then
    match added with
    | some watch => (some watch, { watcher with folders := Function.update watcher.folders watch (some folder) })
    | none => (none, watcher)
  else (none, watcher)

def unwatch (watcher : Watcher) (watch : ℤ) (folder : Id) : Watcher :=
  if watcher.inotify ∧ watcher.folders watch = some folder then
    { watcher with folders := Function.update watcher.folders watch none }
  else watcher

end Watcher

structure Changes where
  everything : Bool
  names : Bool
  files : List Id
  gone : List Path

def Changes.default : Changes := ⟨false, false, [], []⟩

structure Tree where
  root : Path
  nodes : List Node
  mount : ℕ
  watcher : Watcher
  polled : List Id
  changes : Changes
  /-- The places that can be used again, the last one first. -/
  free : List Id

namespace Tree

/-- The tree of a folder that has not been read. -/
def new (root : Path) (mount : ℕ) (inotify : Bool) : Tree where
  root
  nodes := [⟨ROOT, .empty, 0, .folder .default⟩]
  mount
  watcher := ⟨inotify, fun _ ↦ none⟩
  polled := []
  changes := .default
  free := []

variable (tree : Tree)

def kind (id : Id) : Kind := ((tree.nodes[id]?).map Node.kind).getD .free

def parent (id : Id) : Id := ((tree.nodes[id]?).map Node.parent).getD ROOT

def name (id : Id) : Name := ((tree.nodes[id]?).map Node.name).getD .empty

def modified (id : Id) : ℤ := ((tree.nodes[id]?).map Node.modified).getD 0

def folder (id : Id) : Option Folder :=
  match tree.kind id with
  | .folder folder => some folder
  | _ => none

def is_file (id : Id) : Bool :=
  match tree.kind id with
  | .file => true
  | _ => false

/-- A node is changed. -/
def modify (id : Id) (change : Node → Node) : Tree := { tree with nodes := tree.nodes.modify id change }

/-- A folder is changed. -/
def setFolder (id : Id) (folder : Folder) : Tree := tree.modify id fun node ↦ { node with kind := .folder folder }

def allocate (node : Node) : Id × Tree :=
  match tree.free.getLast? with
  | some id => (id, { tree with nodes := tree.nodes.set id node, free := tree.free.dropLast })
  | none => (tree.nodes.length, { tree with nodes := tree.nodes ++ [node] })

def live : ℕ := tree.nodes.length - tree.free.length

/-- What is watched or looked at of a folder that goes. -/
def forget (id : Id) (folder : Folder) : Tree :=
  { tree with
    watcher :=
      match folder.watch with
      | some watch => tree.watcher.unwatch watch id
      | none => tree.watcher
    polled := tree.polled.filter (· ≠ id) }

/-- A node goes, with all that is in it. -/
def remove : ℕ → Id → Tree → Option Tree
  | 0, _, _ => none
  | fuel + 1, id, tree => do
    let kind := tree.kind id
    let tree := tree.modify id fun node ↦ { node with name := .empty, kind := .free }
    let tree ←
      match kind with
      | .folder folder => folder.children.foldlM (fun tree child ↦ remove fuel child tree) (tree.forget id folder)
      | _ => some tree
    some { tree with free := tree.free ++ [id] }

def discard (fuel : ℕ) (id : Id) (path : Path) (tree : Tree) : Option Tree :=
  remove fuel id { tree with changes.gone := tree.changes.gone ++ [path] }

/-- A folder that is not there any more goes. -/
def detach (fuel : ℕ) (id : Id) (path : Path) (tree : Tree) : Option Tree := do
  let tree : Tree := { tree with changes.gone := tree.changes.gone ++ [path] }
  if id = ROOT then
    let root ← tree.folder ROOT
    let tree ← root.children.foldlM (fun tree child ↦ remove fuel child tree)
      (tree.setFolder ROOT { root with children := [] })
    let root ← tree.folder ROOT
    some (tree.setFolder ROOT { root with read := none })
  else
    let parent := tree.parent id
    let folder ← tree.folder parent
    remove fuel id (tree.setFolder parent { folder with children := folder.children.filter (· ≠ id) })

end Tree

end Kestrel

import Luft.Kestrel.Walk
import Luft.Lib.Arena

/-!
# What removing and adding nodes keeps

`Sound tree roots freed` is what holds in between: the live nodes are a forest with these roots, the places that
can be used again are those of the nodes that are free, but for some that were only just `freed`, and only live
folders are watched or looked at.  `remove` takes a root with all that is in it (`remove_sound`), and what is
reached from other roots stays as it is (`Frame`).
-/

set_option autoImplicit false

namespace Kestrel

open Arena

namespace Tree

/-- What the nodes say of each other. -/
def view (tree : Tree) : View Id Name where
  live := fun id ↦ tree.kind id ≠ .free
  children := fun id ↦ ((tree.folder id).map Folder.children).getD []
  parent := tree.parent
  label := tree.name

structure Sound (tree : Tree) (roots freed : List Id) : Prop where
  forest : Forest tree.view roots
  nodup : (tree.free ++ freed).Nodup
  mem_free : ∀ id, id ∈ tree.free ++ freed ↔ id < tree.nodes.length ∧ tree.kind id = .free
  watched : ∀ {watch id}, tree.watcher.folders watch = some id →
    tree.watcher.inotify ∧ ∃ folder, tree.folder id = some folder ∧ folder.watch = some watch
  polled : ∀ {id}, id ∈ tree.polled → (tree.folder id).isSome

/-- What is reached from some of these roots stays as it is. -/
def Frame (tree after : Tree) (roots : List Id) : Prop :=
  ∀ starts, starts ⊆ roots → ∀ id, Reach tree.view starts id →
    after.nodes[id]? = tree.nodes[id]? ∧ Reach after.view starts id

variable {tree after : Tree} {roots freed : List Id} {id other : Id} {folder : Folder}

/-! ## Nodes -/

theorem kind_congr (h : after.nodes[id]? = tree.nodes[id]?) : after.kind id = tree.kind id := by
  rw [kind, kind, h]

theorem folder_congr (h : after.nodes[id]? = tree.nodes[id]?) : after.folder id = tree.folder id := by
  rw [Tree.folder, Tree.folder, kind_congr h]

theorem parent_congr (h : after.nodes[id]? = tree.nodes[id]?) : after.parent id = tree.parent id := by
  rw [parent, parent, h]

theorem name_congr (h : after.nodes[id]? = tree.nodes[id]?) : after.name id = tree.name id := by
  rw [name, name, h]

theorem view_congr (h : after.nodes[id]? = tree.nodes[id]?) : after.view.children id = tree.view.children id ∧
    after.view.parent id = tree.view.parent id ∧ after.view.label id = tree.view.label id := by
  refine ⟨?_, parent_congr h, name_congr h⟩
  show (after.folder id |>.map Folder.children).getD [] = _
  rw [folder_congr h]
  rfl

theorem folder_eq_some : tree.folder id = some folder ↔ tree.kind id = .folder folder := by
  rw [Tree.folder]
  rcases tree.kind id with _ | _ | other
  · exact ⟨fun h ↦ (by cases h), fun h ↦ (by cases h)⟩
  · exact ⟨fun h ↦ (by cases h), fun h ↦ (by cases h)⟩
  · exact ⟨fun h ↦ congrArg Kind.folder (Option.some.inj h), fun h ↦ congrArg some (Kind.folder.inj h)⟩

theorem children_eq (h : tree.folder id = some folder) : tree.view.children id = folder.children := by
  show ((tree.folder id).map Folder.children).getD [] = _
  rw [h]
  rfl

theorem children_of_none (h : tree.folder id = none) : tree.view.children id = [] := by
  show ((tree.folder id).map Folder.children).getD [] = _
  rw [h]
  rfl

theorem exists_folder_of_mem (h : other ∈ tree.view.children id) :
    ∃ folder, tree.folder id = some folder ∧ other ∈ folder.children := by
  rcases hfolder : tree.folder id with _ | folder
  · rw [children_of_none hfolder] at h
    exact absurd h List.not_mem_nil
  · rw [children_eq hfolder] at h
    exact ⟨folder, rfl, h⟩

theorem lt_length_of_live (h : tree.view.live id) : id < tree.nodes.length := by
  by_contra hle
  refine h ?_
  rw [kind, List.getElem?_eq_none (Nat.not_lt.1 hle)]
  rfl

theorem live_of_folder (h : tree.folder id = some folder) : tree.view.live id := by
  intro hfree
  rw [folder_eq_some, hfree] at h
  cases h

theorem modify_of_ne (change : Node → Node) (h : other ≠ id) : (tree.modify id change).nodes[other]? = tree.nodes[other]? := by
  exact List.getElem?_modify_ne _ _ (Ne.symm h)

theorem modify_self (change : Node → Node) : (tree.modify id change).nodes[id]? = (tree.nodes[id]?).map change := by
  exact List.getElem?_modify_eq ..

theorem length_modify (change : Node → Node) : (tree.modify id change).nodes.length = tree.nodes.length :=
  List.length_modify ..

theorem exists_node (h : tree.view.live id) : ∃ node, tree.nodes[id]? = some node :=
  ⟨_, List.getElem?_eq_getElem (lt_length_of_live h)⟩

/-- A folder that is changed is one. -/
theorem folder_setFolder (h : (tree.folder id).isSome) (folder : Folder) : (tree.setFolder id folder).folder id = some folder := by
  obtain ⟨old, hold⟩ := Option.isSome_iff_exists.1 h
  obtain ⟨node, hnode⟩ := exists_node (live_of_folder hold)
  rw [folder_eq_some, kind, setFolder, modify_self, hnode]
  rfl

theorem nodes_setFolder_of_ne (folder : Folder) (h : other ≠ id) :
    (tree.setFolder id folder).nodes[other]? = tree.nodes[other]? := modify_of_ne _ h

/-- Changing a folder changes no name and no parent. -/
theorem parent_setFolder (folder : Folder) : (tree.setFolder id folder).parent = tree.parent ∧
    (tree.setFolder id folder).name = tree.name := by
  refine ⟨funext fun other ↦ ?_, funext fun other ↦ ?_⟩
  · by_cases h : other = id
    · rw [h, parent, parent, setFolder, modify_self, Option.map_map]
      rfl
    · exact parent_congr (nodes_setFolder_of_ne folder h)
  · by_cases h : other = id
    · rw [h, name, name, setFolder, modify_self, Option.map_map]
      rfl
    · exact name_congr (nodes_setFolder_of_ne folder h)

theorem live_setFolder (h : (tree.folder id).isSome) (folder : Folder) (other : Id) :
    (tree.setFolder id folder).view.live other ↔ tree.view.live other := by
  by_cases hother : other = id
  · obtain ⟨old, hold⟩ := Option.isSome_iff_exists.1 h
    rw [hother]
    exact iff_of_true (live_of_folder (folder_setFolder h folder)) (live_of_folder hold)
  · exact not_congr (iff_of_eq (congrArg (· = Kind.free) (kind_congr (nodes_setFolder_of_ne folder hother))))

/-! ## Removing -/

namespace Frame

theorem refl (tree : Tree) (roots : List Id) : Frame tree tree roots := fun _ _ _ h ↦ ⟨rfl, h⟩

theorem trans {last : Tree} (h : Frame tree after roots) (h' : Frame after last roots) : Frame tree last roots := by
  intro starts hsub id hid
  obtain ⟨hnode, hreach⟩ := h starts hsub id hid
  obtain ⟨hnode', hreach'⟩ := h' starts hsub id hreach
  exact ⟨hnode'.trans hnode, hreach'⟩

theorem mono {fewer : List Id} (h : Frame tree after roots) (hsub : fewer ⊆ roots) : Frame tree after fewer :=
  fun starts hstarts ↦ h starts (List.Subset.trans hstarts hsub)

/-- A root stays as it is. -/
theorem root (h : Frame tree after roots) (hid : id ∈ roots) : after.nodes[id]? = tree.nodes[id]? :=
  (h roots (List.Subset.refl roots) id (.root hid)).1

end Frame

theorem Sound.perm {more : List Id} (h : tree.Sound roots freed) (hperm : roots.Perm more) : tree.Sound more freed :=
  ⟨h.forest.perm hperm, h.nodup, h.mem_free, h.watched, h.polled⟩

/-- A node goes, and what is in it is left. -/
def release (tree : Tree) (id : Id) : Tree :=
  match tree.kind id with
  | .folder folder => (tree.modify id fun node ↦ { node with name := .empty, kind := .free }).forget id folder
  | _ => tree.modify id fun node ↦ { node with name := .empty, kind := .free }

theorem remove_succ (fuel : ℕ) (id : Id) (tree : Tree) : remove (fuel + 1) id tree =
    ((tree.view.children id).foldlM (fun tree child ↦ remove fuel child tree) (tree.release id)).map
      fun tree ↦ { tree with free := tree.free ++ [id] } := by
  rw [remove, release]
  rcases hkind : tree.kind id with _ | _ | folder
  · rw [children_of_none (by rw [Tree.folder, hkind])]
    rfl
  · rw [children_of_none (by rw [Tree.folder, hkind])]
    rfl
  · rw [children_eq (folder_eq_some.2 hkind), Option.map_eq_bind]
    rfl

theorem nodes_release : (tree.release id).nodes =
    (tree.modify id fun node ↦ { node with name := .empty, kind := .free }).nodes := by
  rw [release]
  rcases tree.kind id with _ | _ | folder
  · rfl
  · rfl
  · rfl

theorem release_of_ne (h : other ≠ id) : (tree.release id).nodes[other]? = tree.nodes[other]? := by
  rw [nodes_release]
  exact modify_of_ne _ h

theorem kind_release (h : tree.view.live id) : (tree.release id).kind id = .free := by
  obtain ⟨node, hnode⟩ := exists_node h
  rw [kind, nodes_release, modify_self, hnode]
  rfl

theorem free_release : (tree.release id).free = tree.free := by
  rw [release]
  rcases tree.kind id with _ | _ | folder
  · rfl
  · rfl
  · rfl

theorem release_frame (h : Forest tree.view (id :: roots)) : Frame tree (tree.release id) roots := by
  intro starts hsub other hother
  refine ⟨release_of_ne (h.ne_of_reach hsub hother), hother.of_children fun p hp n hn ↦ ?_⟩
  rwa [(view_congr (release_of_ne (h.ne_of_reach hsub hp))).1]

theorem inotify_unwatch (watcher : Watcher) (held : ℤ) (id : Id) :
    (watcher.unwatch held id).inotify = watcher.inotify := by
  rw [Watcher.unwatch]
  split_ifs
  · rfl
  · rfl

theorem folders_unwatch {watcher : Watcher} {held watch : ℤ}
    (h : (watcher.unwatch held id).folders watch = some other) :
    watcher.folders watch = some other ∧ (watcher.inotify → watch = held → other ≠ id) := by
  rw [Watcher.unwatch] at h
  split_ifs at h with hheld
  · have hne : watch ≠ held := by
      rintro rfl
      exact Option.some_ne_none other (h.symm.trans (Function.update_self ..))
    exact ⟨(Function.update_of_ne hne _ _).symm.trans h, fun _ heq ↦ absurd heq hne⟩
  · refine ⟨h, fun hinotify heq hid ↦ hheld ⟨hinotify, ?_⟩⟩
    rw [← heq, h, hid]

/-- Only live folders are watched and looked at, after one goes. -/
theorem Sound.forget_release (h : tree.Sound (id :: roots) freed) :
    (∀ {watch other}, (tree.release id).watcher.folders watch = some other →
      (tree.release id).watcher.inotify ∧ other ≠ id ∧ tree.watcher.folders watch = some other) ∧
    ∀ {other}, other ∈ (tree.release id).polled → other ≠ id ∧ other ∈ tree.polled := by
  rw [release]
  rcases hkind : tree.kind id with _ | _ | folder
  · exact absurd hkind (h.forest.roots_live List.mem_cons_self)
  · have hnot : (tree.folder id) = none := by rw [Tree.folder, hkind]
    refine ⟨fun {watch other} hwatch ↦ ?_, fun {other} hpolled ↦ ?_⟩
    · obtain ⟨hinotify, folder, hfolder, -⟩ := h.watched hwatch
      refine ⟨hinotify, ?_, hwatch⟩
      rintro rfl
      rw [hnot] at hfolder
      cases hfolder
    · refine ⟨?_, hpolled⟩
      rintro rfl
      have hsome := h.polled hpolled
      rw [hnot] at hsome
      cases hsome
  · have hfolder := folder_eq_some.2 hkind
    refine ⟨fun {watch other} hwatch ↦ ?_, fun {other} hpolled ↦ ?_⟩
    · have hkept : (tree.watcher.folders watch = some other ∧ tree.watcher.inotify) ∧
          (folder.watch = some watch → other ≠ id) := by
        rcases hold : folder.watch with _ | held
        · simp only [forget, hold] at hwatch
          exact ⟨⟨hwatch, (h.watched hwatch).1⟩, fun heq ↦ (by cases heq)⟩
        · simp only [forget, hold] at hwatch
          obtain ⟨hwatch, hne⟩ := folders_unwatch hwatch
          have hinotify := (h.watched hwatch).1
          exact ⟨⟨hwatch, hinotify⟩, fun heq ↦ hne hinotify (Option.some.inj heq).symm⟩
      refine ⟨?_, ?_, hkept.1.1⟩
      · rcases hold : folder.watch with _ | held
        · simp only [forget, hold]
          exact hkept.1.2
        · simp only [forget, hold, inotify_unwatch]
          exact hkept.1.2
      · rintro rfl
        obtain ⟨-, other', hother, hwatching⟩ := h.watched hkept.1.1
        obtain rfl := Option.some.inj (hfolder.symm.trans hother)
        exact hkept.2 hwatching rfl
    · obtain ⟨hpolled, hne⟩ := List.mem_filter.1 hpolled
      exact ⟨of_decide_eq_true hne, hpolled⟩

theorem Sound.release (h : tree.Sound (id :: roots) freed) :
    (tree.release id).Sound (tree.view.children id ++ roots) (id :: freed) := by
  have hlive : tree.view.live id := h.forest.roots_live List.mem_cons_self
  have hgone : (tree.release id).folder id = none := by rw [Tree.folder, kind_release hlive]
  have hnotfree : id ∉ tree.free ++ freed := fun hmem ↦ hlive ((h.mem_free id).1 hmem).2
  obtain ⟨hwatched, hpolled⟩ := h.forget_release
  constructor
  · refine h.forest.release (fun other ↦ ?_) (children_of_none hgone) fun other hother ↦
      view_congr (release_of_ne hother)
    by_cases hother : other = id
    · rw [hother]
      exact iff_of_false (fun hl ↦ hl (kind_release hlive)) fun hl ↦ hl.2 rfl
    · rw [and_iff_left hother]
      exact not_congr (iff_of_eq (congrArg (· = Kind.free) (kind_congr (release_of_ne hother))))
  · rw [free_release]
    exact (List.perm_middle.nodup_iff).2 (List.nodup_cons.2 ⟨hnotfree, h.nodup⟩)
  · intro other
    rw [free_release, List.perm_middle.mem_iff, List.mem_cons, h.mem_free, nodes_release, length_modify]
    by_cases hother : other = id
    · rw [hother]
      exact iff_of_true (.inl rfl) ⟨lt_length_of_live hlive, kind_release hlive⟩
    · rw [or_iff_right hother, kind_congr (release_of_ne hother)]
  · intro watch other hwatch
    obtain ⟨hinotify, hne, hold⟩ := hwatched hwatch
    obtain ⟨-, folder, hfolder, hwatching⟩ := h.watched hold
    exact ⟨hinotify, folder, by rw [folder_congr (release_of_ne hne), hfolder], hwatching⟩
  · intro other hmem
    obtain ⟨hne, hold⟩ := hpolled hmem
    rw [folder_congr (release_of_ne hne)]
    exact h.polled hold

/-- **Roots are removed**, one after the other. -/
theorem removeAll_sound {α : Type} {step : Tree → α → Option Tree} {target : α → Id}
    (hstep : ∀ {a tree after roots freed}, Sound tree (target a :: roots) freed → step tree a = some after →
      after.Sound roots freed ∧ Frame tree after roots)
    {gone : List α} (h : tree.Sound (gone.map target ++ roots) freed) (hafter : gone.foldlM step tree = some after) :
    after.Sound roots freed ∧ Frame tree after roots := by
  induction gone generalizing tree with
  | nil =>
    obtain rfl := Option.some.inj hafter
    exact ⟨h, .refl _ _⟩
  | cons a gone ih =>
    rw [List.foldlM_cons] at hafter
    obtain ⟨middle, hmiddle, hrest⟩ := Option.bind_eq_some_iff.1 hafter
    obtain ⟨hsound, hframe⟩ := hstep h hmiddle
    obtain ⟨hsound', hframe'⟩ := ih hsound hrest
    exact ⟨hsound', (hframe.mono (List.subset_append_right _ roots)).trans hframe'⟩

/-- **A root is removed**, with all that is in it. -/
theorem remove_sound {fuel : ℕ} (h : tree.Sound (id :: roots) freed) (hafter : remove fuel id tree = some after) :
    after.Sound roots freed ∧ Frame tree after roots := by
  induction fuel generalizing id tree after roots freed with
  | zero => cases hafter
  | succ fuel ih =>
    rw [remove_succ, Option.map_eq_some_iff] at hafter
    obtain ⟨middle, hmiddle, rfl⟩ := hafter
    have hrelease := h.release
    rw [← List.map_id (tree.view.children id)] at hrelease
    obtain ⟨hsound, hframe⟩ := removeAll_sound ih hrelease hmiddle
    refine ⟨⟨hsound.forest, ?_, ?_, hsound.watched, hsound.polled⟩, ?_⟩
    · show ((middle.free ++ [id]) ++ freed).Nodup
      rw [List.append_assoc]
      exact hsound.nodup
    · intro other
      show other ∈ (middle.free ++ [id]) ++ freed ↔ _
      rw [List.append_assoc]
      exact hsound.mem_free other
    · exact (release_frame h.forest).trans hframe

theorem discard_sound {room : ℕ} {path : Path} (h : tree.Sound (id :: roots) freed)
    (hafter : discard room id path tree = some after) : after.Sound roots freed ∧ Frame tree after roots := by
  have hgone : Sound { tree with changes.gone := tree.changes.gone ++ [path] } (id :: roots) freed :=
    ⟨h.forest, h.nodup, h.mem_free, h.watched, h.polled⟩
  obtain ⟨hsound, hframe⟩ := remove_sound hgone hafter
  exact ⟨hsound, hframe⟩

end Tree

end Kestrel

import Luft.Kestrel.Sound

/-!
# What changing a folder keeps

Children are cut off a folder and roots are put under one (`Sound.cut`, `Sound.link`); a folder is watched or
looked at (`watch_sound`).  `Beside tree after c` says what the way to other nodes needs: where one comes without
passing by `c`, folders stay folders and list what they did, but for `c`.
-/

set_option autoImplicit false

namespace Kestrel

open Arena

namespace Tree

variable {tree after last : Tree} {roots freed : List Id} {id other child : Id} {folder old : Folder}

/-! ## Changing one folder -/

/-- Only what is watched and looked at changes. -/
theorem Sound.rewatch (h : tree.Sound roots freed) (hnodes : after.nodes = tree.nodes) (hfree : after.free = tree.free)
    (hwatched : ∀ {watch id}, after.watcher.folders watch = some id →
      after.watcher.inotify ∧ ∃ folder, tree.folder id = some folder ∧ folder.watch = some watch)
    (hpolled : ∀ id ∈ after.polled, (tree.folder id).isSome) : after.Sound roots freed := by
  have hsame (id : Id) : after.nodes[id]? = tree.nodes[id]? := by rw [hnodes]
  have hview : after.view = tree.view := by
    simp only [view, funext fun id ↦ kind_congr (hsame id), funext fun id ↦ folder_congr (hsame id),
      funext fun id ↦ parent_congr (hsame id), funext fun id ↦ name_congr (hsame id)]
  refine ⟨hview ▸ h.forest, hfree ▸ h.nodup, fun id ↦ ?_, fun {watch id} hwatch ↦ ?_, fun {id} hid ↦ ?_⟩
  · rw [hfree, hnodes, kind_congr (hsame id)]
    exact h.mem_free id
  · rw [folder_congr (hsame id)]
    exact hwatched hwatch
  · rw [folder_congr (hsame id)]
    exact hpolled id hid

theorem Sound.changes (h : tree.Sound roots freed) (changes : Changes) : { tree with changes }.Sound roots freed :=
  h.rewatch rfl rfl h.watched fun _ ↦ h.polled

theorem nodes_touch (tree : Tree) (id : Id) (touched : Name → Bool) : (tree.touch id touched).nodes = tree.nodes ∧
    (tree.touch id touched).free = tree.free ∧ (tree.touch id touched).watcher = tree.watcher ∧
    (tree.touch id touched).polled = tree.polled := by
  rw [touch]
  rcases tree.folder id with _ | folder
  · simp
  · simp

theorem Sound.touch (h : tree.Sound roots freed) (id : Id) (touched : Name → Bool) :
    (tree.touch id touched).Sound roots freed := by
  obtain ⟨hnodes, hfree, hwatcher, hpolled⟩ := nodes_touch tree id touched
  refine h.rewatch hnodes hfree (fun hwatch ↦ ?_) fun _ hid ↦ h.polled (hpolled ▸ hid)
  rw [hwatcher] at hwatch ⊢
  exact h.watched hwatch

/-- A folder is changed, and the nodes are a forest still. -/
theorem Sound.setFolder {more : List Id} (h : tree.Sound roots freed) (hold : tree.folder id = some old)
    (hwatch : ∀ {watch}, tree.watcher.folders watch = some id → folder.watch = some watch)
    (hforest : Forest (tree.setFolder id folder).view more) : (tree.setFolder id folder).Sound more freed := by
  have hsome : (tree.folder id).isSome := by rw [hold]; rfl
  have hfolder := folder_setFolder hsome folder
  refine ⟨hforest, h.nodup, fun other ↦ ?_, fun {watch other} hwatching ↦ ?_, fun {other} hother ↦ ?_⟩
  · rw [show (tree.setFolder id folder).nodes.length = tree.nodes.length from length_modify _]
    refine (h.mem_free other).trans (and_congr_right fun _ ↦ not_iff_not.1 ?_)
    exact (live_setFolder hsome folder other).symm
  · obtain ⟨hinotify, folder', hfolder', hwatch'⟩ := h.watched hwatching
    refine ⟨hinotify, ?_⟩
    by_cases hother : other = id
    · subst hother
      exact ⟨folder, hfolder, hwatch hwatching⟩
    · exact ⟨folder', by rw [folder_congr (nodes_setFolder_of_ne folder hother), hfolder'], hwatch'⟩
  · by_cases heq : other = id
    · rw [heq, hfolder]
      rfl
    · rw [folder_congr (nodes_setFolder_of_ne folder heq)]
      exact h.polled hother

theorem children_setFolder_of_ne (folder : Folder) (h : other ≠ id) :
    (tree.setFolder id folder).view.children other = tree.view.children other :=
  (view_congr (nodes_setFolder_of_ne folder h)).1

/-- **Children are cut off** a folder. -/
theorem Sound.cut (h : tree.Sound roots freed) (hold : tree.folder id = some old) {gone rest : List Id}
    (hsplit : old.children.Perm (gone ++ rest)) :
    (tree.setFolder id { old with children := rest }).Sound (gone ++ roots) freed := by
  have hsome : (tree.folder id).isSome := by rw [hold]; rfl
  have hfolder := folder_setFolder hsome { old with children := rest }
  refine h.setFolder hold (fun hwatching ↦ ?_) (h.forest.cut ((children_eq hold).symm ▸ hsplit)
    (live_setFolder hsome _) (children_eq hfolder) (fun _ ↦ children_setFolder_of_ne _) (parent_setFolder _).1
    (parent_setFolder _).2)
  obtain ⟨-, folder', hfolder', hwatch⟩ := h.watched hwatching
  exact Option.some.inj (hold.symm.trans hfolder') ▸ hwatch

/-- **Roots are put under a folder** that had no children. -/
theorem Sound.link {more : List Id} (h : tree.Sound (more ++ roots) freed) (hold : tree.folder id = some old)
    (hnone : old.children = []) (hreach : Reach tree.view roots id) (hmore : folder.children = more)
    (hwatch : folder.watch = old.watch) (hunder : ∀ n ∈ more, tree.parent n = id)
    (hlabels : (more.map tree.name).Nodup) : (tree.setFolder id folder).Sound roots freed := by
  have hsome : (tree.folder id).isSome := by rw [hold]; rfl
  have hfolder := folder_setFolder hsome folder
  refine h.setFolder hold (fun hwatching ↦ ?_) (h.forest.link hreach ((children_eq hold).trans hnone)
    (live_setFolder hsome _) ((children_eq hfolder).trans hmore) (fun _ ↦ children_setFolder_of_ne _)
    (parent_setFolder _).1 (parent_setFolder _).2 hunder hlabels (live_of_folder hold))
  obtain ⟨-, folder', hfolder', hwatch'⟩ := h.watched hwatching
  obtain rfl := Option.some.inj (hold.symm.trans hfolder')
  exact hwatch.trans hwatch'

/-! ## Beside a folder -/

/-- What is reached without coming by a node: folders stay folders, and keep their children but that node. -/
def Beside (tree after : Tree) (c : Id) : Prop :=
  ∀ id, Off tree.view ROOT c id → ((tree.folder id).isSome → (after.folder id).isSome) ∧
    ∀ n ∈ tree.view.children id, n ≠ c → n ∈ after.view.children id

namespace Beside

theorem refl (tree : Tree) (c : Id) : Beside tree tree c := fun _ _ ↦ ⟨fun h ↦ h, fun _ hn _ ↦ hn⟩

theorem of_nodes {c : Id} (h : ∀ n, Off tree.view ROOT c n → after.nodes[n]? = tree.nodes[n]?) : Beside tree after c := by
  intro id hid
  rw [folder_congr (h id hid), (view_congr (h id hid)).1]
  exact ⟨fun hs ↦ hs, fun n hn _ ↦ hn⟩

theorem off {c : Id} (h : Beside tree after c) (hid : Off tree.view ROOT c id) : Off after.view ROOT c id := by
  induction hid with
  | root hne => exact .root hne
  | child hp hn hne ih => exact .child ih ((h _ hp).2 _ hn hne) hne

theorem trans {c : Id} (h : Beside tree after c) (h' : Beside after last c) : Beside tree last c := by
  intro id hid
  obtain ⟨hsome, hchildren⟩ := h id hid
  obtain ⟨hsome', hchildren'⟩ := h' id (h.off hid)
  exact ⟨fun hs ↦ hsome' (hsome hs), fun n hn hne ↦ hchildren' n (hchildren n hn hne) hne⟩

/-- Beside a child is beside its parent. -/
theorem of_child {c : Id} (h : Beside tree after child) (hforest : Forest tree.view [ROOT])
    (hchild : child ∈ tree.view.children c) : Beside tree after c := by
  intro id hid
  obtain ⟨hsome, hchildren⟩ := h id (hforest.off_child hchild hid)
  refine ⟨hsome, fun n hn _ ↦ hchildren n hn ?_⟩
  rintro rfl
  exact hid.ne ((hforest.parent hn).symm.trans (hforest.parent hchild))

end Beside

/-- A folder that does not list a node any more is as it was beside it. -/
theorem Beside.cut (hold : tree.folder id = some old) (c : Id) :
    Beside tree (tree.setFolder id { old with children := old.children.filter (· ≠ c) }) c := by
  intro n _
  by_cases hn : n = id
  · have hsome : (tree.folder id).isSome := by rw [hold]; rfl
    have hcut := folder_setFolder hsome { old with children := old.children.filter (· ≠ c) }
    rw [hn, children_eq hcut, children_eq hold, hcut]
    exact ⟨fun _ ↦ rfl, fun m hm hne ↦ List.mem_filter.2 ⟨hm, decide_eq_true hne⟩⟩
  · rw [folder_congr (nodes_setFolder_of_ne _ hn), children_setFolder_of_ne _ hn]
    exact ⟨fun hs ↦ hs, fun m hm _ ↦ hm⟩

/-- Two trees that say the same, but of what folders are otherwise. -/
structure Alike (tree after : Tree) : Prop where
  children : ∀ id, after.view.children id = tree.view.children id
  folder : ∀ id, (after.folder id).isSome = (tree.folder id).isSome

theorem Alike.of_nodes (h : after.nodes = tree.nodes) : Alike tree after := by
  have hsame (id : Id) : after.nodes[id]? = tree.nodes[id]? := by rw [h]
  exact ⟨fun id ↦ (view_congr (hsame id)).1, fun id ↦ by rw [folder_congr (hsame id)]⟩

theorem Alike.setFolder (hold : tree.folder id = some old) (hchildren : folder.children = old.children) :
    Alike tree (tree.setFolder id folder) := by
  have hsome : (tree.folder id).isSome := by rw [hold]; rfl
  have hfolder := folder_setFolder hsome folder
  refine ⟨fun other ↦ ?_, fun other ↦ ?_⟩
  · by_cases h : other = id
    · rw [h, children_eq hfolder, children_eq hold, hchildren]
    · exact children_setFolder_of_ne folder h
  · by_cases h : other = id
    · rw [h, hfolder, hold]
      rfl
    · rw [folder_congr (nodes_setFolder_of_ne folder h)]

theorem Alike.trans (h : Alike tree after) (h' : Alike after last) : Alike tree last :=
  ⟨fun id ↦ (h'.children id).trans (h.children id), fun id ↦ (h'.folder id).trans (h.folder id)⟩

theorem Alike.beside (h : Alike tree after) (c : Id) : Beside tree after c :=
  fun id _ ↦ ⟨fun hs ↦ (h.folder id).trans hs, fun _ hn _ ↦ (h.children id).symm ▸ hn⟩

/-- The same folder, watched or not. -/
theorem Sound.same_children (h : tree.Sound roots freed) (hold : tree.folder id = some old)
    (hchildren : folder.children = old.children)
    (hwatch : ∀ {watch}, tree.watcher.folders watch = some id → folder.watch = some watch) :
    (tree.setFolder id folder).Sound roots freed := by
  have hsome : (tree.folder id).isSome := by rw [hold]; rfl
  have halike := Alike.setFolder hold hchildren
  refine h.setFolder hold hwatch ?_
  have hsplit : (tree.view.children id).Perm ([] ++ old.children) := by rw [children_eq hold, List.nil_append]
  exact h.forest.cut hsplit (live_setFolder hsome _) ((halike.children id).trans (children_eq hold))
    (fun _ ↦ children_setFolder_of_ne _) (parent_setFolder _).1 (parent_setFolder _).2

/-! ## Watching -/

theorem watch_cases (watcher : Watcher) (added : Option ℤ) (id : Id) : watcher.watch added id = (none, watcher) ∨
    ∃ held, watcher.inotify ∧ watcher.watch added id =
      (some held, { watcher with folders := Function.update watcher.folders held (some id) }) := by
  by_cases hinotify : watcher.inotify
  · rcases added with _ | held
    · simp [Watcher.watch]
    · exact .inr ⟨held, hinotify, by simp [Watcher.watch, hinotify]⟩
  · simp [Watcher.watch, hinotify]

/-- A watch is taken for a folder that had none. -/
theorem Sound.watching (h : tree.Sound roots freed) (hold : tree.folder id = some old) (hnone : old.watch = none)
    {watcher : Watcher} {held : Option ℤ} {added : Option ℤ} (hadd : tree.watcher.watch added id = (held, watcher)) :
    (Tree.setFolder { tree with watcher } id { old with watch := held }).Sound roots freed := by
  have hsome : (tree.folder id).isSome := by rw [hold]; rfl
  have hset : (tree.setFolder id { old with watch := held }).Sound roots freed := by
    refine h.same_children hold rfl fun hwatching ↦ ?_
    obtain ⟨-, folder, hfolder, hwatch⟩ := h.watched hwatching
    rw [← Option.some.inj (hold.symm.trans hfolder), hnone] at hwatch
    cases hwatch
  refine hset.rewatch rfl rfl (fun {watch other} hwatch ↦ ?_) fun _ ↦ hset.polled
  rcases watch_cases tree.watcher added id with hnot | ⟨w, hinotify, hw⟩
  · obtain ⟨rfl, rfl⟩ := Prod.mk.inj (hadd.symm.trans hnot)
    exact hset.watched hwatch
  · obtain ⟨rfl, rfl⟩ := Prod.mk.inj (hadd.symm.trans hw)
    by_cases heq : watch = w
    · subst heq
      change Function.update tree.watcher.folders watch (some id) watch = some other at hwatch
      rw [Function.update_self] at hwatch
      obtain rfl := Option.some.inj hwatch
      exact ⟨hinotify, _, folder_setFolder hsome _, rfl⟩
    · exact hset.watched ((Function.update_of_ne heq _ _).symm.trans hwatch)

theorem watch_sound {world : World} {path : Path} (h : tree.Sound roots freed)
    (hafter : tree.watch world id path = some after) : after.Sound roots freed ∧ Alike tree after := by
  rw [watch] at hafter
  obtain ⟨folder, hfolder, hafter⟩ := Option.bind_eq_some_iff.1 hafter
  by_cases hwatch : folder.watch.isSome
  · rw [if_pos hwatch] at hafter
    obtain rfl := Option.some.inj hafter
    exact ⟨h, .of_nodes rfl⟩
  rw [if_neg hwatch] at hafter
  rcases hadd : tree.watcher.watch (world.add_watch path) id with ⟨held, watcher⟩
  have hsound := h.watching hfolder (Option.not_isSome_iff_eq_none.1 hwatch) hadd
  have hsame : Alike tree (tree.setFolder id { folder with watch := held }) := .setFolder hfolder rfl
  rw [hadd] at hafter
  rcases held with _ | held
  · obtain rfl := Option.some.inj hafter
    refine ⟨hsound.rewatch rfl rfl hsound.watched fun other hother ↦ ?_, hsame.trans (.of_nodes rfl)⟩
    have hid : other = id ∨ other ∈ tree.polled := by
      dsimp only at hother
      split_ifs at hother with hmem
      · exact .inr hother
      · exact (List.mem_append.1 hother).symm.imp_left List.mem_singleton.1
    rcases hid with rfl | hid
    · exact (hsame.folder other).trans (by rw [hfolder]; rfl)
    · exact hsound.polled hid
  · generalize hmiddle : Tree.setFolder { tree with watcher } id { folder with watch := some held } = middle at hsound
    have halike : Alike tree middle := hmiddle ▸ hsame.trans (.of_nodes rfl)
    have hpolled : Sound { middle with polled := tree.polled.filter (· ≠ id) } roots freed :=
      hsound.rewatch rfl rfl hsound.watched fun _ hother ↦ hsound.polled (hmiddle ▸ (List.mem_filter.1 hother).1)
    have heq : (if folder.read.isSome then touch id (fun _ ↦ true) { middle with polled := tree.polled.filter (· ≠ id) }
        else { middle with polled := tree.polled.filter (· ≠ id) }) = after := by
      subst hmiddle
      exact Option.some.inj hafter
    by_cases hread : folder.read.isSome
    · rw [if_pos hread] at heq
      obtain ⟨hnodes, -⟩ := nodes_touch { middle with polled := tree.polled.filter (· ≠ id) } id fun _ ↦ true
      exact ⟨heq ▸ hpolled.touch id _, halike.trans (.of_nodes (heq ▸ hnodes))⟩
    · rw [if_neg hread] at heq
      exact ⟨heq ▸ hpolled, halike.trans (.of_nodes (heq ▸ rfl))⟩

end Tree

end Kestrel

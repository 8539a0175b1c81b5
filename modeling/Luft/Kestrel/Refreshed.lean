import Luft.Kestrel.Listing

/-!
# The index after any refreshes

A folder that is gone is cut off the one that lists it, and goes with all that is in it (`detach_sound`).  A visit
reads a folder and goes on to the folders in it, and whatever it does there it leaves the folders beside them
in place, so that those that are still to be visited are still listed (`visit_sound`).

After any refreshes the live nodes are a tree (`WellFormed`, `refreshes_wellFormed`).
-/

set_option autoImplicit false

namespace Kestrel

open Arena

namespace Tree

variable {tree after last start : Tree} {roots freed : List Id} {id other child : Id} {folder old : Folder}
  {world : World} {room fuel : ℕ} {path : Path}

/-! ## A folder that is gone -/

theorem not_off_root : ¬ Off tree.view ROOT ROOT id := by
  intro h
  induction h with
  | root h => exact h rfl
  | child _ _ _ ih => exact ih

/-- The root folder loses all that is in it. -/
theorem detach_root (h : tree.Sound [ROOT] []) (hafter : detach room ROOT path tree = some after) :
    after.Sound [ROOT] [] ∧ (after.folder ROOT).isSome := by
  rw [detach, if_pos rfl] at hafter
  obtain ⟨root, hroot, hafter⟩ := Option.bind_eq_some_iff.1 hafter
  obtain ⟨empty, hempty, hafter⟩ := Option.bind_eq_some_iff.1 hafter
  obtain ⟨last, hlast, hafter⟩ := Option.bind_eq_some_iff.1 hafter
  obtain rfl := Option.some.inj hafter
  have hcut := (h.changes { tree.changes with gone := tree.changes.gone ++ [path] }).cut hroot
    (.of_eq (List.append_nil root.children).symm)
  rw [← List.map_id root.children] at hcut
  obtain ⟨hsound, -⟩ := removeAll_sound (fun hs hstep ↦ remove_sound hs hstep) hcut hempty
  have hsome : (empty.folder ROOT).isSome := by rw [hlast]; rfl
  refine ⟨hsound.same_children hlast rfl fun hwatching ↦ ?_, by rw [folder_setFolder hsome]; rfl⟩
  obtain ⟨-, folder, hfolder, hwatch⟩ := hsound.watched hwatching
  rwa [Option.some.inj (hlast.symm.trans hfolder)]

/-- **A folder that is gone** is cut off. -/
theorem detach_other (h : tree.Sound [ROOT] []) (hlive : tree.view.live id) (hroot : id ≠ ROOT)
    (hafter : detach room id path tree = some after) : after.Sound [ROOT] [] ∧ Beside tree after id := by
  rw [detach, if_neg hroot] at hafter
  obtain ⟨folder, hfolder, hafter⟩ := Option.bind_eq_some_iff.1 hafter
  have hmem : id ∈ folder.children := by
    rw [← children_eq hfolder]
    exact h.forest.mem_children hlive fun hin ↦ hroot (List.mem_singleton.1 hin)
  have hnodup : folder.children.Nodup := children_eq hfolder ▸ h.forest.children_nodup _
  have hsplit : folder.children.Perm ([id] ++ folder.children.filter (· ≠ id)) := by
    have herase : folder.children.filter (· ≠ id) = folder.children.erase id := by
      rw [hnodup.erase_eq_filter]
      exact List.filter_congr fun n _ ↦ by by_cases hn : n = id <;> simp [hn]
    rw [herase]
    exact List.perm_cons_erase hmem
  have hcut := (h.changes { tree.changes with gone := tree.changes.gone ++ [path] }).cut hfolder hsplit
  obtain ⟨hsound, hframe⟩ := remove_sound hcut hafter
  have hbeside := (Beside.cut hfolder id).trans (.of_nodes fun n hn ↦ (hframe [ROOT] (List.Subset.refl _) n hn.reach).1)
  exact ⟨hsound, hbeside⟩

/-! ## A visit -/

/-- What holds between visits. -/
structure Steady (tree : Tree) : Prop where
  sound : tree.Sound [ROOT] []
  root : (tree.folder ROOT).isSome

/-- Where the folder itself is still one if it is the root folder, the root folder is. -/
theorem Steady.of_beside (h : tree.Steady) (hbeside : Beside tree after id) (hsound : after.Sound [ROOT] [])
    (hself : id = ROOT → (after.folder ROOT).isSome) : after.Steady := by
  refine ⟨hsound, ?_⟩
  by_cases hid : id = ROOT
  · exact hself hid
  · exact (hbeside ROOT (.root (Ne.symm hid))).1 h.root

theorem detach_sound (h : tree.Steady) (hfolder : (tree.folder id).isSome) (hafter : detach room id path tree = some after) :
    after.Steady ∧ Beside tree after id := by
  by_cases hid : id = ROOT
  · subst hid
    obtain ⟨hsound, hsome⟩ := detach_root h.sound hafter
    exact ⟨⟨hsound, hsome⟩, fun _ hoff ↦ absurd hoff not_off_root⟩
  · obtain ⟨folder, hfolder⟩ := Option.isSome_iff_exists.1 hfolder
    obtain ⟨hsound, hbeside⟩ := detach_other h.sound (live_of_folder hfolder) hid hafter
    exact ⟨h.of_beside hbeside hsound fun heq ↦ absurd heq hid, hbeside⟩

/-- **Children are visited**, one after the other: each leaves those to come in place. -/
theorem visitAll_sound {step : Bool × Tree → Id → Option (Bool × Tree)}
    (hstep : ∀ {child state next}, state.2.Steady → (state.2.folder child).isSome → step state child = some next →
      next.2.Steady ∧ Beside state.2 next.2 child)
    {children : List Id} (hnodup : children.Nodup) {state final : Bool × Tree} (h : state.2.Steady)
    (hchildren : ∀ child ∈ children, child ∈ state.2.view.children id ∧ (state.2.folder child).isSome)
    (hfinal : children.foldlM step state = some final) : final.2.Steady ∧ Beside state.2 final.2 id := by
  induction children generalizing state with
  | nil =>
    obtain rfl := Option.some.inj hfinal
    exact ⟨h, .refl _ _⟩
  | cons child children ih =>
    rw [List.foldlM_cons] at hfinal
    obtain ⟨next, hnext, hfinal⟩ := Option.bind_eq_some_iff.1 hfinal
    rw [List.nodup_cons] at hnodup
    obtain ⟨hlisted, hfolder⟩ := hchildren child List.mem_cons_self
    obtain ⟨hsteady, hbeside⟩ := hstep h hfolder hnext
    -- The parent of the child is beside it, and so are the other children.
    have hparent := h.sound.forest.off_parent hlisted
    have hothers : ∀ other ∈ children, other ∈ next.2.view.children id ∧ (next.2.folder other).isSome := by
      intro other hother
      obtain ⟨hlisted', hfolder'⟩ := hchildren other (List.mem_cons_of_mem _ hother)
      have hne : other ≠ child := fun heq ↦ hnodup.1 (heq ▸ hother)
      exact ⟨(hbeside id hparent).2 other hlisted' hne, (hbeside other (.child hparent hlisted' hne)).1 hfolder'⟩
    obtain ⟨hsteady', hbeside'⟩ := ih hnodup.2 hsteady hothers hfinal
    exact ⟨hsteady', (hbeside.of_child h.sound.forest hlisted).trans hbeside'⟩

/-- The folders that are due are children, and folders. -/
theorem due_listed (hold : tree.folder id = some old) (again : Bool) (hchild : child ∈ tree.due old again) :
    child ∈ tree.view.children id ∧ (tree.folder child).isSome := by
  obtain ⟨hmem, hdue⟩ := List.mem_filter.1 hchild
  refine ⟨(children_eq hold).symm ▸ hmem, ?_⟩
  rcases hfolder : tree.folder child with _ | folder
  · rw [hfolder] at hdue
    cases hdue
  · rfl

/-- **The folders in a folder** are visited, each of them as a visit goes. -/
theorem enter_sound {visit : Id → Path → Rules → Bool → Tree → Option (Bool × Tree)}
    (hvisit : ∀ {id path rules in_repository tree final}, Steady tree → (tree.folder id).isSome →
      visit id path rules in_repository tree = some final → final.2.Steady ∧ Beside tree final.2 id)
    {rules : Rules} {in_repository again : Bool} {state final : Bool × Tree} (h : state.2.Steady)
    (hfinal : enter visit id path rules in_repository again state = some final) :
    final.2.Steady ∧ Beside state.2 final.2 id := by
  rw [enter] at hfinal
  rcases hkept : (state.2.folder id).filter fun folder ↦ !folder.excluded with _ | kept
  · rw [hkept] at hfinal
    obtain rfl := Option.some.inj hfinal
    exact ⟨h, .refl _ id⟩
  rw [hkept] at hfinal
  have hlisting := (Option.filter_eq_some_iff.1 hkept).1
  have hnodup : kept.children.Nodup := children_eq hlisting ▸ h.sound.forest.children_nodup id
  refine visitAll_sound (fun hs hf hstep ↦ ?_) (hnodup.filter _) h (fun child hchild ↦ due_listed hlisting _ hchild) hfinal
  obtain ⟨visited, hvisited, rfl⟩ := Option.map_eq_some_iff.1 hstep
  obtain ⟨hsteady, hbeside⟩ := hvisit hs hf hvisited
  exact ⟨hsteady, hbeside⟩

/-- **A visit** keeps the tree, and touches only what is in the folder. -/
theorem visit_sound {rules : Rules} {in_repository force everything : Bool} {final : Bool × Tree} (h : tree.Steady)
    (hfolder : (tree.folder id).isSome)
    (hfinal : visit world room fuel id path rules in_repository force everything tree = some final) :
    final.2.Steady ∧ Beside tree final.2 id := by
  induction fuel generalizing id path rules in_repository force everything tree final with
  | zero => cases hfinal
  | succ fuel ih =>
    rw [visit] at hfinal
    rcases hinfo : (world.stat path).filter fun info ↦ info.is_dir && info.mount = tree.mount with _ | info
    · rw [hinfo] at hfinal
      obtain ⟨after, hafter, rfl⟩ := Option.map_eq_some_iff.1 hfinal
      exact detach_sound h hfolder hafter
    rw [hinfo] at hfinal
    obtain ⟨folder, hold, hfinal⟩ := Option.bind_eq_some_iff.1 hfinal
    obtain ⟨⟨changed, read⟩, hread, hfinal⟩ := Option.bind_eq_some_iff.1 hfinal
    have hmiddle : read.Steady ∧ Beside tree read id := by
      split_ifs at hread
      · obtain ⟨hsound, hbeside, hself⟩ := read_sound h.sound hfolder hread
        exact ⟨h.of_beside hbeside hsound fun heq ↦ heq ▸ hself, hbeside⟩
      · obtain ⟨-, rfl⟩ := Prod.mk.inj (Option.some.inj hread)
        exact ⟨h, .refl _ id⟩
    obtain ⟨hsteady, hbeside⟩ := enter_sound (fun hs hf hvisited ↦ ih hs hf hvisited) hmiddle.1 hfinal
    exact ⟨hsteady, hmiddle.2.trans hbeside⟩

/-! ## A refresh -/

namespace Steady

theorem changes (h : tree.Steady) (changes : Changes) : { tree with changes }.Steady := ⟨h.sound.changes changes, h.root⟩

theorem touch (h : tree.Steady) (id : Id) (touched : Name → Bool) : (tree.touch id touched).Steady := by
  obtain ⟨hnodes, -⟩ := nodes_touch tree id touched
  have hsame : (tree.touch id touched).nodes[ROOT]? = tree.nodes[ROOT]? := by rw [hnodes]
  exact ⟨h.sound.touch id touched, by rw [folder_congr hsame]; exact h.root⟩

theorem foldlM {α : Type*} {step : Tree → α → Option Tree}
    (hstep : ∀ {a tree after}, Steady tree → step tree a = some after → after.Steady) {l : List α} (h : tree.Steady)
    (hafter : l.foldlM step tree = some after) : after.Steady := by
  induction l generalizing tree with
  | nil =>
    obtain rfl := Option.some.inj hafter
    exact h
  | cons a l ih =>
    rw [List.foldlM_cons] at hafter
    obtain ⟨next, hnext, hafter⟩ := Option.bind_eq_some_iff.1 hafter
    exact ih (hstep h hnext) hafter

end Steady

/-- What the watches told is taken, and each folder that lost its watch has none. -/
structure Drained (before : Watcher) (state : Watcher × Pending) : Prop where
  inotify : state.1.inotify = before.inotify
  fewer : ∀ {watch id}, state.1.folders watch = some id → before.folders watch = some id
  unwatched : ∀ {id}, id ∈ state.2.unwatched → ∀ watch, state.1.folders watch ≠ some id

theorem Drained.step {before : Watcher} {state : Watcher × Pending} (h : Drained before state)
    (hone : ∀ {watch watch' id}, before.folders watch = some id → before.folders watch' = some id → watch = watch')
    (event : RawEvent) : Drained before (drainOne state event) := by
  obtain ⟨watcher, pending⟩ := state
  rcases event with _ | watch | ⟨watch, name, edit⟩
  · exact ⟨h.inotify, h.fewer, h.unwatched⟩
  · rw [drainOne]
    rcases hwatch : watcher.folders watch with _ | folder
    · exact h
    have hkept {other : ℤ} {id : Id} (hid : Function.update watcher.folders watch none other = some id) :
        other ≠ watch ∧ watcher.folders other = some id := by
      by_cases heq : other = watch
      · rw [heq, Function.update_self] at hid
        cases hid
      · exact ⟨heq, (Function.update_of_ne heq _ _).symm.trans hid⟩
    refine ⟨h.inotify, fun hid ↦ h.fewer (hkept hid).2, fun {id} hid other heq ↦ ?_⟩
    obtain ⟨hne, hother⟩ := hkept heq
    rcases List.mem_append.1 hid with hid | hid
    · exact h.unwatched hid other hother
    · obtain rfl := List.mem_singleton.1 hid
      exact hne (hone (h.fewer hother) (h.fewer hwatch))
  · rw [drainOne.eq_def]
    rcases hwatch : watcher.folders watch with _ | folder
    · simpa only [hwatch] using h
    rcases name with _ | name
    · simpa only [hwatch] using h
    simp only [hwatch]
    split_ifs
    · exact ⟨h.inotify, h.fewer, h.unwatched⟩
    · exact h
    · exact ⟨h.inotify, h.fewer, h.unwatched⟩
    · exact ⟨h.inotify, h.fewer, h.unwatched⟩

theorem pending_steady (world : World) (h : tree.Steady) : (tree.pending world).2.Steady ∧
    ∀ {id}, id ∈ (tree.pending world).1.unwatched → ∀ watch, (tree.pending world).2.watcher.folders watch ≠ some id := by
  have hone {watch watch' : ℤ} {id : Id} (hwatch : tree.watcher.folders watch = some id)
      (hwatch' : tree.watcher.folders watch' = some id) : watch = watch' := by
    obtain ⟨-, folder, hfolder, hheld⟩ := h.sound.watched hwatch
    obtain ⟨-, folder', hfolder', hheld'⟩ := h.sound.watched hwatch'
    obtain rfl := Option.some.inj (hfolder.symm.trans hfolder')
    exact Option.some.inj (hheld.symm.trans hheld')
  have hdrained : Drained tree.watcher ((if tree.watcher.inotify then world.events else []).foldl drainOne
      (tree.watcher, ⟨false, [], [], []⟩)) :=
    List.foldlRecOn _ _ ⟨rfl, fun hid ↦ hid, fun hid ↦ absurd hid List.not_mem_nil⟩ fun _ hs event _ ↦ hs.step hone event
  refine ⟨⟨h.sound.rewatch rfl rfl (fun hwatch ↦ ?_) fun _ ↦ h.sound.polled, h.root⟩, hdrained.unwatched⟩
  obtain ⟨hinotify, hfolder⟩ := h.sound.watched (hdrained.fewer hwatch)
  exact ⟨hdrained.inotify.trans hinotify, hfolder⟩

theorem unwatched_steady {ids : List Id} (h : tree.Steady)
    (hnone : ∀ {id}, id ∈ ids → ∀ watch, tree.watcher.folders watch ≠ some id) : (ids.foldl unwatched tree).Steady := by
  induction ids generalizing tree with
  | nil => exact h
  | cons id ids ih =>
    rw [List.foldl_cons]
    refine ih ?_ ?_
    · rw [unwatched]
      rcases hread : tree.read_folder id with _ | folder
      · exact h
      have hold := (Option.filter_eq_some_iff.1 hread).1
      have hset : (tree.setFolder id { folder with watch := none }).Sound [ROOT] [] :=
        h.sound.same_children hold rfl fun hwatch ↦ absurd hwatch (hnone List.mem_cons_self _)
      have halike : Alike tree (tree.setFolder id { folder with watch := none }) := .setFolder hold rfl
      refine ⟨hset.rewatch rfl rfl hset.watched fun other hother ↦ ?_, (halike.folder ROOT).trans h.root⟩
      dsimp only at hother
      split_ifs at hother with hmem
      · exact hset.polled hother
      · rcases List.mem_append.1 hother with hother | hother
        · exact hset.polled hother
        · rw [List.mem_singleton.1 hother, halike.folder, hold]
          rfl
    · have hwatcher : (tree.unwatched id).watcher = tree.watcher := by
        rw [unwatched]
        rcases tree.read_folder id with _ | folder
        · rfl
        · rfl
      rw [hwatcher]
      exact fun {other} hid ↦ hnone (List.mem_cons_of_mem _ hid)

theorem revisit_steady {force everything : Bool} (h : tree.Steady) (heverything : everything → id = ROOT)
    (hafter : revisit world room fuel id force everything tree = some after) : after.Steady := by
  rw [revisit] at hafter
  by_cases hskip : !everything && (tree.read_folder id).isNone
  · rw [if_pos hskip] at hafter
    obtain rfl := Option.some.inj hafter
    exact h
  rw [if_neg hskip] at hafter
  have hfolder : (tree.folder id).isSome := by
    cases everything
    · rcases hread : tree.read_folder id with _ | folder
      · simp [hread] at hskip
      · rw [(Option.filter_eq_some_iff.1 hread).1]
        rfl
    · rw [heverything rfl]
      exact h.root
  obtain ⟨⟨path, rules, in_repository⟩, -, hafter⟩ := Option.bind_eq_some_iff.1 hafter
  obtain ⟨⟨changed, visited⟩, hvisit, hafter⟩ := Option.bind_eq_some_iff.1 hafter
  obtain rfl := Option.some.inj hafter
  exact (visit_sound h hfolder hvisit).1.changes _

/-- **A refresh** keeps the tree. -/
theorem refresh_steady {changes : Changes} (h : tree.Steady)
    (hafter : refresh world room fuel tree = some (changes, after)) : after.Steady := by
  rw [refresh] at hafter
  obtain ⟨hdrained, hnone⟩ := pending_steady world h
  rcases hpending : tree.pending world with ⟨pending, drained⟩
  rw [hpending] at hafter hdrained hnone
  have hunwatched := unwatched_steady hdrained hnone
  dsimp only at hafter
  split_ifs at hafter with hlost
  · obtain ⟨visited, hvisit, hafter⟩ := Option.bind_eq_some_iff.1 hafter
    obtain ⟨-, rfl⟩ := Prod.mk.inj (Option.some.inj hafter)
    exact (revisit_steady (hunwatched.changes _) (fun _ ↦ rfl) hvisit).changes _
  · obtain ⟨visited, hvisit, hafter⟩ := Option.bind_eq_some_iff.1 hafter
    obtain ⟨polled, hpolled, hafter⟩ := Option.bind_eq_some_iff.1 hafter
    obtain ⟨edited, hedited, hafter⟩ := Option.bind_eq_some_iff.1 hafter
    obtain ⟨-, rfl⟩ := Prod.mk.inj (Option.some.inj hafter)
    obtain rfl := Option.some.inj hedited
    have hvisited : visited.Steady := hunwatched.foldlM (fun hs hstep ↦ revisit_steady hs (fun h ↦ by cases h) hstep) hvisit
    have hlooked : polled.Steady := by
      refine hvisited.foldlM (fun hs hstep ↦ ?_) hpolled
      obtain ⟨next, hnext, rfl⟩ := Option.map_eq_some_iff.1 hstep
      exact (revisit_steady hs (fun h ↦ by cases h) hnext).touch _ _
    have hedited := List.foldlRecOn (motive := Steady) (world.order pending.edits)
      (fun tree entry ↦ tree.touch entry.1 fun name ↦ name ∈ entry.2) hlooked fun _ hs entry _ ↦ hs.touch entry.1 _
    exact hedited.changes _

/-! ## Any refreshes -/

/-- What the index says of the folders and files is a tree. -/
structure WellFormed (tree : Tree) : Prop where
  one_way : ∀ id, tree.kind id ≠ .free → ∃! way, Way tree.view ROOT way id
  listed : ∀ id, tree.kind id ≠ .free → id ≠ ROOT → id ∈ tree.view.children (tree.parent id)
  parent : ∀ {folder id}, id ∈ tree.view.children folder → tree.kind id ≠ .free ∧ tree.parent id = folder
  names : ∀ folder, ((tree.view.children folder).map tree.name).Nodup
  free_nodup : tree.free.Nodup
  mem_free : ∀ id, id ∈ tree.free ↔ id < tree.nodes.length ∧ tree.kind id = .free
  root : ROOT ∉ tree.free
  watched : ∀ {watch id}, tree.watcher.folders watch = some id → (tree.folder id).isSome
  polled : ∀ {id}, id ∈ tree.polled → (tree.folder id).isSome

theorem Steady.wellFormed (h : tree.Steady) : tree.WellFormed := by
  have hnodup := h.sound.nodup
  have hmem := h.sound.mem_free
  rw [List.append_nil] at hnodup hmem
  have hforest := h.sound.forest
  obtain ⟨root, hroot⟩ := Option.isSome_iff_exists.1 h.root
  exact
    { one_way := fun id hid ↦ hforest.existsUnique_way hid
      listed := fun id hid hne ↦ hforest.mem_children hid fun hin ↦ hne (List.mem_singleton.1 hin)
      parent := fun hid ↦ ⟨hforest.child_live hid, hforest.parent hid⟩
      names := hforest.labels
      free_nodup := hnodup
      mem_free := hmem
      root := fun hin ↦ live_of_folder hroot ((hmem ROOT).1 hin).2
      watched := fun hwatch ↦ by
        obtain ⟨-, folder, hfolder, -⟩ := h.sound.watched hwatch
        exact Option.isSome_iff_exists.2 ⟨folder, hfolder⟩
      polled := h.sound.polled }

/-- A refresh, with how deep its visits and how deep its removals go. -/
structure Pass where
  world : World
  fuel : ℕ
  room : ℕ

def refreshes (passes : List Pass) (tree : Tree) : Option Tree :=
  passes.foldlM (fun tree pass ↦ (tree.refresh pass.world pass.room pass.fuel).map Prod.snd) tree

theorem new_steady (root : Path) (mount : ℕ) (inotify : Bool) : (new root mount inotify).Steady := by
  have hdead {id : Id} (hid : id ≠ ROOT) : (new root mount inotify).kind id = .free := by
    obtain ⟨before, rfl⟩ := Nat.exists_eq_succ_of_ne_zero hid
    rfl
  have hchildren (id : Id) : (new root mount inotify).view.children id = [] := by
    by_cases hid : id = ROOT
    · rw [hid]
      rfl
    · exact children_of_none (by rw [Tree.folder, hdead hid])
  have hnone {p n : Id} (hn : n ∈ (new root mount inotify).view.children p) : False := by
    rw [hchildren] at hn
    exact List.not_mem_nil hn
  have hlive {id : Id} : (new root mount inotify).view.live id ↔ id = ROOT := by
    refine ⟨fun hid ↦ by_contra fun hne ↦ hid (hdead hne), ?_⟩
    rintro rfl
    exact live_of_folder rfl
  refine ⟨⟨⟨List.nodup_singleton _, fun hr ↦ ?_, fun hn ↦ (hnone hn).elim, fun _ ↦ hchildren _, fun hn ↦ (hnone hn).elim,
    fun hn ↦ (hnone hn).elim, fun p ↦ ?_, fun hn ↦ ?_⟩, List.nodup_nil, fun id ↦ ?_, fun hwatch ↦ ?_, fun hpolled ↦ ?_⟩, rfl⟩
  · exact hlive.2 (List.mem_singleton.1 hr)
  · rw [hchildren]
    exact List.nodup_nil
  · exact .root (List.mem_singleton.2 (hlive.1 hn))
  · refine iff_of_false List.not_mem_nil fun hid ↦ ?_
    have hroot : id = ROOT := Nat.lt_one_iff.1 hid.1
    exact hlive.2 hroot hid.2
  · cases hwatch
  · exact absurd hpolled List.not_mem_nil

/-- **After any refreshes** the index is a tree. -/
theorem refreshes_wellFormed {root : Path} {mount : ℕ} {inotify : Bool} {passes : List Pass}
    (h : refreshes passes (new root mount inotify) = some tree) : tree.WellFormed := by
  have hsteady : tree.Steady := by
    rw [refreshes] at h
    refine (new_steady root mount inotify).foldlM (fun hs hstep ↦ ?_) h
    obtain ⟨⟨changes, next⟩, hnext, rfl⟩ := Option.map_eq_some_iff.1 hstep
    exact refresh_steady hs hnext
  exact hsteady.wellFormed

/-- A folder with a file in it. -/
def oneFolder : World where
  stat path := some ⟨path.length < 2, 1, 0, true⟩
  read_dir path := some (if path = [] then [⟨some ⟨['d'], by decide⟩, some true⟩] else [⟨some ⟨['f'], by decide⟩, some false⟩])
  distinct {path entries} h := by
    obtain rfl := Option.some.inj h
    split_ifs
    · exact List.nodup_singleton _
    · exact List.nodup_singleton _
  gitignore _ _ := none
  add_watch path := some path.length
  events := []
  order l := l
  order_perm l := .refl l

/-- A file instead, and nothing is known of what happened. -/
def fileInstead : World where
  stat path := some ⟨path = [], 2, 0, true⟩
  read_dir _ := some [⟨some ⟨['f'], by decide⟩, some false⟩]
  distinct {path entries} h := by
    obtain rfl := Option.some.inj h
    exact List.nodup_singleton _
  gitignore _ _ := none
  add_watch path := some path.length
  events := [.overflow]
  order l := l
  order_perm l := .refl l

/-- The folder goes, with its file, and their places can be used again. -/
theorem refreshes_wellFormed_replaced : ∃ tree, refreshes [⟨oneFolder, 3, 3⟩, ⟨fileInstead, 3, 3⟩] (new [] 0 true) = some tree ∧
    tree.free = [2, 1] ∧ tree.WellFormed := by
  have hfree : (refreshes [⟨oneFolder, 3, 3⟩, ⟨fileInstead, 3, 3⟩] (new [] 0 true)).map Tree.free = some [2, 1] := by decide
  obtain ⟨tree, htree, hfree⟩ := Option.map_eq_some_iff.1 hfree
  exact ⟨tree, htree, hfree, refreshes_wellFormed htree⟩

end Tree

end Kestrel

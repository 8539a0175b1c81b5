import Luft.Tiling.DwindleTree

/-!
# Every run of the dwindle layout keeps a tree

`Dwindle.Shows d t` relates a layout to the tree it makes, if it has any window; each method takes a
layout that shows a tree to one that does (`shows_insert` and the others), so every run does.

`insert` counts on its window not being `beside` itself: the layout would then split the new leaf
from itself.  Its caller passes a window of the layout, or none.
-/

set_option autoImplicit false

namespace Tiling

namespace Dwindle

variable {T : Type*} {d : Dwindle T} {t : Tree T}

/-- The layout's objects make this tree, and its map is the tree's leaves. -/
structure ShowsTree (d : Dwindle T) (t : Tree T) : Prop where
  root : d.root = some t.id
  shown : t.Shown d.nodes none
  nodup : t.ids.Nodup
  below : ∀ id ∈ t.ids, id < d.next
  leaves : ∀ window id, d.leaves window = some id ↔ (window, id) ∈ t.leaves

/-- The layout shows a tree, or is empty. -/
def Shows (d : Dwindle T) : Option (Tree T) → Prop
  | none => d.root = none ∧ ∀ window, d.leaves window = none
  | some t => d.ShowsTree t

theorem ShowsTree.windows_unique (h : d.ShowsTree t) {window : T} {i j : Id}
    (hi : (window, i) ∈ t.leaves) (hj : (window, j) ∈ t.leaves) : i = j := by
  have heq := ((h.leaves window i).2 hi).symm.trans ((h.leaves window j).2 hj)
  exact Option.some_inj.1 heq

theorem ShowsTree.nodup_windows (h : d.ShowsTree t) : t.windows.Nodup := by
  have hleaves : t.leaves.Nodup := (h.nodup.sublist t.leaves_ids).of_map
  refine hleaves.map_on ?_
  rintro ⟨w, i⟩ hi ⟨w', j⟩ hj (rfl : w = w')
  rw [h.windows_unique hi hj]

/-! ## Insert -/

section Insert

variable {leaf target : Id}

theorem insertBeside_leaves (d : Dwindle T) (leaf target : Id) :
    (d.insertBeside leaf target).leaves = d.leaves ∧
      (d.insertBeside leaf target).next = d.next + 1 := by
  rw [insertBeside]
  split <;> exact ⟨replace_leaves _ _ _, replace_next _ _ _⟩

/-- **Hanging a new leaf beside another** grafts it. -/
theorem insertBeside_shown (hroot : d.root = some t.id) (h : t.Shown d.nodes none)
    (hnd : t.ids.Nodup) (hbelow : ∀ id ∈ t.ids, id < d.next) {window w : T}
    (hleaf : d.nodes leaf = some (.leaf window none)) (hnot : leaf ∉ t.ids) (hlt : leaf < d.next)
    (htarget : (w, target) ∈ t.leaves) : ∃ axis,
      (d.insertBeside leaf target).root = some (t.graft target d.next leaf axis window).id ∧
        (t.graft target d.next leaf axis window).Shown (d.insertBeside leaf target).nodes none := by
  obtain ⟨up, hup⟩ := h.leaf_of_mem htarget
  have hmem := t.leaves_subset htarget
  have hnext : d.next ∉ t.ids := fun hin ↦ lt_irrefl _ (hbelow _ hin)
  have hne : target ≠ leaf := fun heq ↦ hnot (heq ▸ hmem)
  have hparent : d.parentOf target = up := by
    rw [parentOf, hup]
    rfl
  obtain ⟨hnodes, hroot'⟩ : (d.insertBeside leaf target).nodes =
      ((((d.create (.split (longAxis (d.boxes target)) (1 / 2) target leaf
        (d.parentOf target))).replace target d.next).modify target
        (Node.withParent (some d.next))).modify leaf (Node.withParent (some d.next))).nodes ∧
      (d.insertBeside leaf target).root = ((d.create (.split (longAxis (d.boxes target)) (1 / 2)
        target leaf (d.parentOf target))).replace target d.next).root := by
    rw [insertBeside]
    split <;> exact ⟨rfl, rfl⟩
  rw [hparent] at hnodes hroot'
  generalize longAxis (d.boxes target) = axis at hnodes hroot'
  generalize hd1 : d.create (.split axis (1 / 2) target leaf up) = d1 at hnodes hroot'
  have hold {id : Id} (hid : id ≠ d.next) : d1.nodes id = d.nodes id := by
    rw [← hd1, create_ne _ _ hid]
  have hshown : t.Shown d1.nodes none :=
    h.of_agree fun id hid ↦ hold (ne_of_mem_of_not_mem hid hnext)
  obtain ⟨hin, hout, hrep⟩ :=
    replace_spec (d := d1) hshown hnd (by rw [← hd1]; exact hroot) hmem d.next
  refine ⟨axis, ?_, h.graft hup ?_ ?_ ?_ fun id hid hne' ↦ ?_⟩
  · rw [hroot', hrep, h.graft_id hup]
  · rw [hnodes, modify_ne _ _ (Nat.ne_of_gt hlt),
      modify_ne _ _ (ne_of_mem_of_not_mem hmem hnext).symm, hout _ hnext, ← hd1, create_self]
  · rw [hnodes, modify_ne _ _ hne, modify_self, hin _ hmem,
      hold (ne_of_mem_of_not_mem hmem hnext), hup]
    rfl
  · rw [hnodes, modify_self, modify_ne _ _ hne.symm, hout _ hnot, hold (Nat.ne_of_lt hlt), hleaf]
    rfl
  · rw [hnodes, modify_ne _ _ (ne_of_mem_of_not_mem hid hnot), modify_ne _ _ hne', hin _ hid,
      hold (ne_of_mem_of_not_mem hid hnext)]

end Insert

variable [DecidableEq T] {window : T} {beside : Option T}

theorem insert_leaves (d : Dwindle T) (window : T) (beside : Option T) :
    (d.insert window beside).leaves = Function.update d.leaves window (some d.next) := by
  rw [insert]
  split
  · rfl
  · rw [(insertBeside_leaves _ _ _).1]
    rfl

theorem beside_addLeaf (hbeside : beside ≠ some window) :
    beside.bind (d.addLeaf window).leaves = beside.bind d.leaves := by
  cases beside with
  | none => rfl
  | some b =>
    refine Function.update_of_ne ?_ _ _
    rintro rfl
    exact hbeside rfl

/-- Inserting into an empty layout. -/
theorem Shows.insert_none (h : d.Shows none) (hbeside : beside ≠ some window) :
    (d.insert window beside).ShowsTree (.leaf d.next window) := by
  obtain ⟨hroot, hleaves⟩ := h
  have htarget : (beside.bind (d.addLeaf window).leaves).or (d.addLeaf window).lastLeaf = none := by
    rw [beside_addLeaf hbeside, lastLeaf, show (d.addLeaf window).root = none from hroot]
    cases beside with
    | none => rfl
    | some b =>
      show (d.leaves b).or none = none
      rw [hleaves]
      rfl
  have hinsert : d.insert window beside = { d.addLeaf window with root := some d.next } := by
    rw [insert, htarget]
  rw [hinsert]
  refine ⟨rfl, create_self _ _, List.nodup_singleton _, fun id hid ↦ ?_, fun w id ↦ ?_⟩
  · rw [List.mem_singleton.1 hid]
    exact Nat.lt_succ_self _
  · show Function.update d.leaves window (some d.next) w = some id ↔ _
    rw [Tree.leaves, List.mem_singleton, Prod.mk.injEq]
    rcases eq_or_ne w window with rfl | hne
    · rw [Function.update_self, Option.some_inj]
      exact ⟨fun hid ↦ ⟨rfl, hid.symm⟩, fun hid ↦ hid.2.symm⟩
    · rw [Function.update_of_ne hne, hleaves]
      exact ⟨fun hid ↦ (by cases hid), fun hid ↦ absurd hid.1 hne⟩

/-- Inserting into a layout with a tree. -/
theorem ShowsTree.insert (h : d.ShowsTree t) (hnew : d.leaves window = none)
    (hbeside : beside ≠ some window) : ∃ t', (d.insert window beside).ShowsTree t' := by
  have hnext : d.next ∉ t.ids := fun hin ↦ lt_irrefl _ (h.below _ hin)
  have hshown : t.Shown (d.addLeaf window).nodes none :=
    h.shown.of_agree fun id hid ↦ create_ne _ _ (ne_of_mem_of_not_mem hid hnext)
  obtain ⟨w, target, hmem, htarget⟩ : ∃ w target, (w, target) ∈ t.leaves ∧
      (beside.bind (d.addLeaf window).leaves).or (d.addLeaf window).lastLeaf = some target := by
    rw [beside_addLeaf hbeside]
    cases hfound : beside.bind d.leaves with
    | some target =>
      obtain ⟨b, -, hb⟩ := Option.bind_eq_some_iff.1 hfound
      exact ⟨b, target, (h.leaves b target).1 hb, rfl⟩
    | none =>
      have hfuel : t.ids.length ≤ (d.addLeaf window).next :=
        (Tree.length_ids_le h.nodup h.below).trans (Nat.le_succ _)
      obtain ⟨w, last, hlast, heq⟩ := hshown.lastFrom hfuel
      refine ⟨w, last, hlast, ?_⟩
      rw [lastLeaf, show (d.addLeaf window).root = some t.id from h.root]
      exact heq
  have hinsert : d.insert window beside = (d.addLeaf window).insertBeside d.next target := by
    rw [Dwindle.insert, htarget]
  obtain ⟨axis, hroot, hgraft⟩ := insertBeside_shown (d := d.addLeaf window) h.root hshown h.nodup
    (fun id hid ↦ (h.below id hid).trans (Nat.lt_succ_self _)) (create_self _ _) hnext
    (Nat.lt_succ_self _) hmem
  obtain ⟨hids, hleaves⟩ :=
    Tree.graft_perm (d.addLeaf window).next d.next axis window h.nodup hmem
  refine ⟨t.graft target (d.addLeaf window).next d.next axis window, ?_⟩
  rw [hinsert]
  refine ⟨hroot, hgraft, ?_, fun id hid ↦ ?_, fun v id ↦ ?_⟩
  · rw [hids.nodup_iff, List.nodup_cons, List.nodup_cons, List.mem_cons, not_or]
    refine ⟨⟨(Nat.lt_succ_self d.next).ne', fun hin ↦ ?_⟩, hnext, h.nodup⟩
    exact absurd (h.below _ hin) (Nat.lt_asymm (Nat.lt_succ_self d.next))
  · rw [(insertBeside_leaves _ _ _).2]
    have hlt : d.next < (d.addLeaf window).next := Nat.lt_succ_self _
    rcases List.mem_cons.1 (hids.subset hid) with rfl | hid
    · exact Nat.lt_succ_self _
    · rcases List.mem_cons.1 hid with rfl | hid
      · exact hlt.trans (Nat.lt_succ_self _)
      · exact (h.below id hid).trans (hlt.trans (Nat.lt_succ_self _))
  · rw [(insertBeside_leaves _ _ _).1, hleaves.mem_iff, List.mem_cons, Prod.mk.injEq, ← h.leaves]
    show Function.update d.leaves window (some d.next) v = some id ↔ _
    rcases eq_or_ne v window with rfl | hne
    · rw [Function.update_self, Option.some_inj, hnew]
      exact ⟨fun hid ↦ .inl ⟨rfl, hid.symm⟩, fun hid ↦ by
        rcases hid with hid | hid
        · exact hid.2.symm
        · cases hid⟩
    · rw [Function.update_of_ne hne]
      exact ⟨.inr, fun hid ↦ hid.resolve_left fun heq ↦ hne heq.1⟩

/-! ## Remove -/

omit [DecidableEq T] in
/-- **Lifting an object** prunes the split above it. -/
theorem lift_shown (hroot : d.root = some t.id) (h : t.Shown d.nodes none) (hnd : t.ids.Nodup)
    {above gone : Id} (hmem : above ∈ t.ids) {axis : Axis} {ratio : ℚ} {first second : Id}
    {up : Option Id} (habove : d.nodes above = some (.split axis ratio first second up)) :
    (d.lift above (if first = gone then second else first)).root = some (t.prune above gone).id ∧
      (t.prune above gone).Shown
        (d.lift above (if first = gone then second else first)).nodes none := by
  have hprune := h.prune_id gone habove
  obtain ⟨hfirst, hsecond⟩ := h.children hmem habove
  have hsib : (if first = gone then second else first) ∈ t.ids := by
    split
    · exact hsecond
    · exact hfirst
  have hshown (nodes' : Id → Option (Node T)) := h.prune nodes' gone hnd habove hmem
  generalize (if first = gone then second else first) = sibling at *
  obtain ⟨hin, -, hrep⟩ := replace_spec h hnd hroot hmem sibling
  have hup : (d.replace above sibling).parentOf above = up := by
    rw [parentOf, hin _ hmem, habove]
    rfl
  refine ⟨?_, hshown _ ?_ fun id hid hne ↦ ?_⟩
  · rw [hprune]
    exact hrep
  · show ((d.replace above sibling).modify sibling _).nodes sibling = _
    rw [modify_self, hup, hin _ hsib]
  · show ((d.replace above sibling).modify sibling _).nodes id = _
    rw [modify_ne _ _ hne, hin _ hid]

/-- **Removing a window** empties the layout or prunes its leaf. -/
theorem ShowsTree.remove (h : d.ShowsTree t) {leaf : Id} (hleaf : d.leaves window = some leaf) :
    (d.remove window).leaves = Function.update d.leaves window none ∧
      ∃ t', (d.remove window).Shows t' := by
  have hmem := (h.leaves window leaf).1 hleaf
  obtain ⟨up, hnode⟩ := h.shown.leaf_of_mem hmem
  have hparent : (d.forget window leaf).parentOf leaf = up := by
    rw [parentOf, show (d.forget window leaf).nodes = d.nodes from rfl, hnode]
    rfl
  rcases h.shown.parent_has h.nodup (t.leaves_subset hmem) hnode with ⟨htop, hup⟩ |
    ⟨above, axis, ratio, first, second, up', hup, habove, hnodes, hgone⟩
  · -- The leaf is all there is.
    have hremove : d.remove window = { d.forget window leaf with root := none } := by
      rw [Dwindle.remove, hleaf]
      simp only [hparent, show up = none from hup]
    have hwindows : t.leaves = [(window, leaf)] := by
      cases t with
      | leaf id w =>
        rw [Tree.leaves, List.mem_singleton] at hmem
        rw [Tree.leaves, hmem]
      | split id axis ratio first second =>
        rw [Tree.id_split] at htop
        rw [htop, h.shown.1] at hnode
        cases hnode
    rw [hremove]
    refine ⟨rfl, none, rfl, fun w ↦ ?_⟩
    show Function.update d.leaves window none w = none
    rcases eq_or_ne w window with rfl | hne
    · rw [Function.update_self]
    · rw [Function.update_of_ne hne, Option.eq_none_iff_forall_ne_some]
      intro id hid
      rw [h.leaves, hwindows, List.mem_singleton, Prod.mk.injEq] at hid
      exact hne hid.1
  · have hremove : d.remove window =
        (d.forget window leaf).lift above (if first = leaf then second else first) := by
      rw [Dwindle.remove, hleaf]
      simp only [hparent, show up = some above from hup]
      rw [show (d.forget window leaf).nodes above = _ from hnodes]
    obtain ⟨hroot, hshown⟩ := lift_shown (d := d.forget window leaf) h.root h.shown
      h.nodup habove hnodes
    have hperm := h.shown.prune_leaves h.nodup hnodes habove hgone hnode
    have hsub := t.prune_ids above leaf
    have hleaves : (d.remove window).leaves = Function.update d.leaves window none := by
      rw [hremove, lift_leaves]
      rfl
    refine ⟨hleaves, some (t.prune above leaf), ?_⟩
    rw [hremove] at hleaves ⊢
    refine ⟨hroot, hshown, h.nodup.sublist hsub, fun id hid ↦ ?_, fun w id ↦ ?_⟩
    · rw [lift_next]
      exact h.below id (hsub.subset hid)
    · rw [hleaves]
      have hgone' : ∀ id, (window, id) ∉ (t.prune above leaf).leaves := by
        intro id hid
        have hnd := (hperm.map Prod.fst).nodup_iff.1 h.nodup_windows
        rw [List.map_cons, List.nodup_cons] at hnd
        exact hnd.1 (List.mem_map.2 ⟨_, hid, rfl⟩)
      rcases eq_or_ne w window with rfl | hne
      · rw [Function.update_self]
        exact ⟨fun hid ↦ (by cases hid), fun hid ↦ absurd hid (hgone' id)⟩
      · rw [Function.update_of_ne hne, h.leaves, hperm.mem_iff, List.mem_cons, Prod.mk.injEq]
        exact ⟨fun hid ↦ hid.resolve_left fun heq ↦ hne heq.1, .inr⟩

/-! ## Swap -/

theorem swap_empty (hleaves : ∀ w, d.leaves w = none) (a b : T) :
    d.swap a b = d := by
  rw [swap, hleaves]

/-- **Swapping two windows** relabels the leaves. -/
theorem ShowsTree.swap (h : d.ShowsTree t) {a b : T} {i j : Id} (hi : d.leaves a = some i)
    (hj : d.leaves b = some j) : (d.swap a b).ShowsTree (t.relabel (Equiv.swap a b)) ∧
      ∀ w, ((d.swap a b).leaves w).isSome = (d.leaves w).isSome := by
  have hleaves (w : T) : (d.swap a b).leaves w = d.leaves (Equiv.swap a b w) := by
    rw [Dwindle.swap, hi, hj]
    show Function.update (Function.update d.leaves a (some j)) b (some i) w = _
    rcases eq_or_ne w b with rfl | hb
    · rw [Function.update_self, Equiv.swap_apply_right, hi]
    · rcases eq_or_ne w a with rfl | ha
      · rw [Function.update_of_ne hb, Function.update_self, Equiv.swap_apply_left, hj]
      · rw [Function.update_of_ne hb, Function.update_of_ne ha, Equiv.swap_apply_of_ne_of_ne ha hb]
  have hnodes : (d.swap a b).nodes =
      ((d.modify i (Node.withWindow b)).modify j (Node.withWindow a)).nodes := by
    rw [Dwindle.swap, hi, hj]
  have hrest : (d.swap a b).root = d.root ∧ (d.swap a b).next = d.next := by
    rw [Dwindle.swap, hi, hj]
    exact ⟨rfl, rfl⟩
  refine ⟨⟨?_, ?_, ?_, ?_, ?_⟩, ?_⟩
  · rw [hrest.1, Tree.relabel_id]
    exact h.root
  · refine h.shown.relabel _ (fun w id hmem ↦ ?_) (fun id hid hnot ↦ ?_) h.nodup
    · rw [hnodes]
      have hid := (h.leaves w id).2 hmem
      obtain ⟨up, hnode⟩ := h.shown.leaf_of_mem hmem
      have only {v : T} (hv : d.leaves v = some id) : v = w := by
        obtain ⟨up', hnode'⟩ := h.shown.leaf_of_mem ((h.leaves v id).1 hv)
        rw [hnode] at hnode'
        cases hnode'
        rfl
      rcases eq_or_ne id j with rfl | hnej
      · rw [modify_self, ← only hj, Equiv.swap_apply_right]
        rcases eq_or_ne id i with rfl | hnei
        · rw [modify_self, hnode]
          rfl
        · rw [modify_ne _ _ hnei]
      · rw [modify_ne _ _ hnej]
        rcases eq_or_ne id i with rfl | hnei
        · rw [modify_self, ← only hi, Equiv.swap_apply_left]
        · have hwa : w ≠ a := by
            rintro rfl
            exact hnei (Option.some_inj.1 (hid.symm.trans hi))
          have hwb : w ≠ b := by
            rintro rfl
            exact hnej (Option.some_inj.1 (hid.symm.trans hj))
          rw [modify_ne _ _ hnei, Equiv.swap_apply_of_ne_of_ne hwa hwb, hnode]
          rfl
    · have hne {w : T} {k : Id} (hk : d.leaves w = some k) : id ≠ k := by
        rintro rfl
        exact hnot w ((h.leaves w id).1 hk)
      rw [hnodes, modify_ne _ _ (hne hj), modify_ne _ _ (hne hi)]
  · rw [Tree.relabel_ids]
    exact h.nodup
  · rw [Tree.relabel_ids, hrest.2]
    exact h.below
  · intro w id
    rw [hleaves, h.leaves, Tree.relabel_leaves, List.mem_map]
    constructor
    · intro hmem
      exact ⟨_, hmem, by rw [Equiv.swap_apply_self]⟩
    · rintro ⟨⟨v, k⟩, hmem, heq⟩
      rw [Prod.mk.injEq] at heq
      rw [← heq.1, ← heq.2, Equiv.swap_apply_self]
      exact hmem
  · intro w
    rw [hleaves]
    rcases eq_or_ne w a with rfl | ha
    · rw [Equiv.swap_apply_left, hi, hj]
      rfl
    · rcases eq_or_ne w b with rfl | hb
      · rw [Equiv.swap_apply_right, hi, hj]
        rfl
      · rw [Equiv.swap_apply_of_ne_of_ne ha hb]

/-! ## Another ratio -/

omit [DecidableEq T] in
theorem adjust_leaves (d : Dwindle T) (node : Option Id) (ratio : ℚ → Box → ℚ) :
    (d.adjust node ratio).leaves = d.leaves ∧ (d.adjust node ratio).root = d.root ∧
      (d.adjust node ratio).next = d.next := by
  unfold adjust
  split
  · exact ⟨rfl, rfl, rfl⟩
  · split <;> exact ⟨rfl, rfl, rfl⟩

omit [DecidableEq T] in
/-- **A new ratio** retunes one split, or nothing. -/
theorem ShowsTree.adjust (h : d.ShowsTree t) (node : Option Id) (ratio : ℚ → Box → ℚ) :
    ∃ t', (d.adjust node ratio).ShowsTree t' := by
  cases node with
  | none => exact ⟨t, h⟩
  | some id =>
    unfold Dwindle.adjust
    dsimp only
    split
    · rename_i box axis old first second up hbox hnode
      refine ⟨t.retune id (clampRatio (ratio old box)), ?_, ?_, ?_, ?_, fun w i ↦ ?_⟩
      · rw [Tree.retune_id]
        exact h.root
      · refine h.shown.retune id _ fun i hi ↦ ?_
        split
        · rename_i heq
          rw [heq, modify_self]
        · rename_i hne
          rw [modify_ne _ _ hne]
      · rw [Tree.retune_ids]
        exact h.nodup
      · rw [Tree.retune_ids]
        exact h.below
      · rw [Tree.retune_leaves]
        exact h.leaves w i
    · exact ⟨t, h⟩

end Dwindle

end Tiling

import Luft.Kestrel.Reading

/-!
# What a listing keeps

While a folder is read it has no children: those that it had and those that it gets are roots (`Listed`).  A
child that is still there is taken over, one that is another thing now goes, a new one comes as a leaf; what is
reached from the root folder stays as it is.  In the end what is left of the old children goes, and the new ones
are put under the folder (`read_sound`).
-/

set_option autoImplicit false

namespace Kestrel

open Arena

/-! ## The children that were known -/

/-- Children with different names are known by them. -/
theorem known_eq {tree : Tree} {previous : List Id} (h : (previous.map tree.name).Nodup) :
    known tree previous = previous.map fun child ↦ (tree.name child, child) := by
  induction previous using List.reverseRecOn with
  | nil => rfl
  | append_singleton previous child ih =>
    rw [List.map_append, List.nodup_append] at h
    rw [known, List.foldl_append, ← known, ih h.1, List.map_append, List.foldl_cons, List.foldl_nil]
    congr 1
    refine List.filter_eq_self.2 fun entry hentry ↦ ?_
    obtain ⟨other, hother, rfl⟩ := List.mem_map.1 hentry
    exact decide_eq_true (h.2.2 _ (List.mem_map_of_mem hother) _ (List.mem_singleton_self _))

/-- The child of a name, and the others. -/
theorem lookup_perm {known : Known} {name : Name} {child : Id} (hnodup : (known.map Prod.fst).Nodup)
    (h : known.lookup name = some child) : known.Perm ((name, child) :: known.filter (·.1 ≠ name)) := by
  induction known with
  | nil => cases h
  | cons entry known ih =>
    rw [List.map_cons, List.nodup_cons] at hnodup
    rw [List.lookup_cons] at h
    by_cases hname : entry.1 = name
    · rw [hname, beq_self_eq_true, Option.some.injEq] at h
      have hrest : known.filter (·.1 ≠ name) = known := by
        refine List.filter_eq_self.2 fun other hother ↦ decide_eq_true ?_
        rw [← hname]
        exact fun heq ↦ hnodup.1 (heq ▸ List.mem_map_of_mem hother)
      rw [List.filter_cons_of_neg (by simpa using hname), hrest, ← hname, ← h]
    · rw [beq_false_of_ne (Ne.symm hname)] at h
      rw [List.filter_cons_of_pos (by simpa using hname)]
      exact ((ih hnodup.2 h).cons entry).trans (List.Perm.swap _ _ _)

theorem not_mem_of_lookup {known : Known} {name : Name} (h : known.lookup name = none) :
    name ∉ known.map Prod.fst := by
  intro hmem
  obtain ⟨entry, hentry, rfl⟩ := List.mem_map.1 hmem
  exact absurd (beq_self_eq_true entry.1) (by simpa using List.lookup_eq_none_iff.1 h entry hentry)

namespace Tree

variable {tree after last start : Tree} {roots freed : List Id} {id other child : Id} {folder old : Folder}

/-! ## A new node -/

/-- A new node is where there was none. -/
theorem allocate_cases (h : tree.Sound roots []) (node : Node) : ∃ new after, tree.allocate node = (new, after) ∧
    ¬ tree.view.live new ∧ after.nodes[new]? = some node ∧
    (∀ other, other ≠ new → after.nodes[other]? = tree.nodes[other]?) ∧
    after.watcher = tree.watcher ∧ after.polled = tree.polled ∧ after.free.Nodup ∧
    ∀ other, other ∈ after.free ↔ other ∈ tree.free ∧ other ≠ new := by
  have hnodup := h.nodup
  have hmem := h.mem_free
  rw [List.append_nil] at hnodup hmem
  rcases hlast : tree.free.getLast? with _ | new
  · have hnil := List.getLast?_eq_none_iff.1 hlast
    refine ⟨tree.nodes.length, { tree with nodes := tree.nodes ++ [node] }, by rw [allocate, hlast],
      fun hlive ↦ Nat.lt_irrefl _ (lt_length_of_live hlive), List.getElem?_concat_length .., fun other hother ↦ ?_, rfl, rfl,
      hnodup, fun other ↦ by simp [hnil]⟩
    rcases Nat.lt_or_gt_of_ne hother with hlt | hgt
    · exact List.getElem?_append_left hlt
    · rw [List.getElem?_eq_none (by simpa [Nat.succ_le_iff] using hgt), List.getElem?_eq_none (Nat.le_of_lt hgt)]
  · obtain ⟨rest, hrest⟩ := List.getLast?_eq_some_iff.1 hlast
    obtain ⟨hlt, hfree⟩ := (hmem new).1 (List.mem_of_getLast? hlast)
    rw [hrest, List.nodup_append] at hnodup
    refine ⟨new, { tree with nodes := tree.nodes.set new node, free := tree.free.dropLast }, by rw [allocate, hlast],
      fun hlive ↦ hlive hfree, List.getElem?_set_self hlt, fun other hother ↦ List.getElem?_set_ne (Ne.symm hother),
      rfl, rfl, ?_, fun other ↦ ?_⟩
    · simpa [hrest] using hnodup.1
    · have hnew : new ∉ rest := fun hin ↦ hnodup.2.2 new hin new (List.mem_singleton_self new) rfl
      simp only [hrest, List.dropLast_concat, List.mem_append, List.mem_singleton]
      refine ⟨fun hin ↦ ⟨.inl hin, ?_⟩, fun hin ↦ hin.1.resolve_right hin.2⟩
      rintro rfl
      exact hnew hin

/-- **A new child** is a root, and the others stay as they are. -/
theorem allocate_sound {new : Id} {node : Node} (h : tree.Sound roots []) (hnode : node.kind ≠ .free)
    (hleaf : ∀ folder, node.kind = .folder folder → folder.children = []) (hafter : tree.allocate node = (new, after)) :
    after.Sound (new :: roots) [] ∧ Frame tree after roots ∧ after.nodes[new]? = some node := by
  obtain ⟨new', after', heq, hdead, hnew, hother, hwatcher, hpolled, hnodup, hfree⟩ := allocate_cases h node
  obtain ⟨rfl, rfl⟩ := Prod.mk.inj (hafter.symm.trans heq)
  have hne {n : Id} (hn : tree.view.live n) : n ≠ new := fun heq ↦ hdead (heq ▸ hn)
  have hkind : after.kind new = node.kind := by simp [kind, hnew]
  have hmem := h.mem_free
  rw [List.append_nil] at hmem
  refine ⟨⟨h.forest.fresh hdead (fun n ↦ ?_) ?_ fun n hn ↦ view_congr (hother n hn), ?_, fun n ↦ ?_, ?_, ?_⟩, ?_, hnew⟩
  · by_cases hn : n = new
    · exact iff_of_true (by rw [hn]; exact hkind.trans_ne hnode) (.inr hn)
    · rw [or_iff_left hn]
      exact not_congr (iff_of_eq (congrArg (· = Kind.free) (kind_congr (hother n hn))))
  · rcases hfolder : after.folder new with _ | folder
    · exact children_of_none hfolder
    · rw [children_eq hfolder]
      exact hleaf folder (hkind.symm.trans (folder_eq_some.1 hfolder))
  · rwa [List.append_nil]
  · rw [List.append_nil, hfree]
    by_cases hn : n = new
    · rw [hn, hkind]
      exact iff_of_false (fun hin ↦ hin.2 rfl) fun hin ↦ hnode hin.2
    · have hlt : n < after.nodes.length ↔ n < tree.nodes.length := by
        rw [← Nat.not_le, ← Nat.not_le, ← List.getElem?_eq_none_iff, ← List.getElem?_eq_none_iff, hother n hn]
      rw [and_iff_left hn, hmem, hlt, kind_congr (hother n hn)]
  · intro watch n hwatch
    rw [hwatcher] at hwatch ⊢
    obtain ⟨hinotify, folder, hfolder, hheld⟩ := h.watched hwatch
    exact ⟨hinotify, folder, by rw [folder_congr (hother n (hne (live_of_folder hfolder))), hfolder], hheld⟩
  · intro n hn
    obtain ⟨folder, hfolder⟩ := Option.isSome_iff_exists.1 (h.polled (hpolled ▸ hn))
    rw [folder_congr (hother n (hne (live_of_folder hfolder))), hfolder]
    rfl
  · intro starts hsub n hn
    have hlive {m : Id} (hm : Reach tree.view starts m) : tree.view.live m := by
      cases hm with
      | root hroot => exact h.forest.roots_live (hsub hroot)
      | child _ hm => exact h.forest.child_live hm
    refine ⟨hother n (hne (hlive hn)), hn.of_children fun p hp m hm ↦ ?_⟩
    rwa [(view_congr (hother p (hne (hlive hp)))).1]

/-! ## The steps of a listing -/

/-- The children that are taken and those that are known are roots. -/
def Listing.tops (listing : Listing) : List Id := listing.children ++ (listing.known.map Prod.snd ++ [ROOT])

/-- How a listing stands, with some `names` to come. -/
structure Listed (start : Tree) (id : Id) (names : List Name) (listing : Listing) : Prop where
  frame : Frame start listing.tree [ROOT]
  under : ∀ n ∈ listing.children ++ listing.known.map Prod.snd, listing.tree.parent n = id
  named : ∀ entry ∈ listing.known, listing.tree.name entry.2 = entry.1
  labels : (listing.children.map listing.tree.name ++ listing.known.map Prod.fst).Nodup
  apart : ∀ n ∈ listing.children, listing.tree.name n ∉ names

variable {listing : Listing} {names : List Name} {name : Name}

namespace Listed

theorem mono {fewer : List Name} (h : Listed start id names listing) (hsub : fewer ⊆ names) :
    Listed start id fewer listing := { h with apart := fun n hn hmem ↦ h.apart n hn (hsub hmem) }

/-- Some that are known are let go of. -/
theorem step {known : Known} (h : Listed start id names listing) (hsub : known.Sublist listing.known)
    (hframe : Frame listing.tree after (listing.children ++ (known.map Prod.snd ++ [ROOT]))) :
    Listed start id names { listing with known, tree := after } := by
  have hsnd : known.map Prod.snd ⊆ listing.known.map Prod.snd := (hsub.map _).subset
  have hsame {n : Id} (hn : n ∈ listing.children ++ known.map Prod.snd) :
      after.nodes[n]? = listing.tree.nodes[n]? := by
    refine hframe.root ?_
    rw [← List.append_assoc]
    exact List.mem_append_left _ hn
  have hchildren : listing.children.map after.name = listing.children.map listing.tree.name :=
    List.map_congr_left fun n hn ↦ name_congr (hsame (List.mem_append_left _ hn))
  constructor
  · refine h.frame.trans (hframe.mono ?_)
    exact List.Subset.trans (List.subset_append_right _ _) (List.subset_append_right _ _)
  · intro n hn
    rw [parent_congr (hsame hn)]
    exact h.under n ((List.mem_append.1 hn).elim (List.mem_append_left _) fun hn ↦ List.mem_append_right _ (hsnd hn))
  · intro entry hentry
    rw [name_congr (hsame (List.mem_append_right _ (List.mem_map_of_mem hentry)))]
    exact h.named entry (hsub.subset hentry)
  · show (listing.children.map after.name ++ known.map Prod.fst).Nodup
    rw [hchildren]
    exact h.labels.sublist ((List.Sublist.refl _).append (hsub.map _))
  · intro n hn
    rw [name_congr (hsame (List.mem_append_left _ hn))]
    exact h.apart n hn

/-- One that comes, or is taken over. -/
theorem add (h : Listed start id names listing) (hunder : listing.tree.parent child = id)
    (hname : listing.tree.name child = name) (hknown : name ∉ listing.known.map Prod.fst)
    (hchildren : name ∉ listing.children.map listing.tree.name) (hnames : name ∉ names) (changed : Bool) :
    Listed start id names { listing with children := listing.children ++ [child], changed } := by
  refine ⟨h.frame, fun n hn ↦ ?_, h.named, ?_, fun n hn ↦ ?_⟩
  · simp only [List.mem_append, List.mem_singleton] at hn
    rcases hn with (hn | rfl) | hn
    · exact h.under n (List.mem_append_left _ hn)
    · exact hunder
    · exact h.under n (List.mem_append_right _ hn)
  · show ((listing.children ++ [child]).map listing.tree.name ++ listing.known.map Prod.fst).Nodup
    rw [List.map_append, List.map_singleton, hname, List.append_assoc, List.singleton_append]
    refine List.perm_middle.nodup_iff.2 (List.nodup_cons.2 ⟨?_, h.labels⟩)
    simp only [List.mem_append, not_or]
    exact ⟨hchildren, hknown⟩
  · rcases List.mem_append.1 hn with hn | hn
    · exact h.apart n hn
    · rwa [List.mem_singleton.1 hn, hname]

end Listed

/-- The child of a name, and the other roots. -/
theorem tops_perm (h : Listed start id names listing) (hchild : listing.known.lookup name = some child) :
    (name, child) ∈ listing.known ∧
    listing.tops.Perm (child :: (listing.children ++ ((listing.known.filter (·.1 ≠ name)).map Prod.snd ++ [ROOT]))) := by
  have hperm := lookup_perm (List.nodup_append.1 h.labels).2.1 hchild
  refine ⟨hperm.mem_iff.2 List.mem_cons_self, ?_⟩
  exact (((hperm.map Prod.snd).append_right [ROOT]).append_left listing.children).trans List.perm_middle

/-- **A child is taken over.** -/
theorem keep_sound (hs : listing.tree.Sound listing.tops []) (h : Listed start id (name :: names) listing)
    (hname : name ∉ names) (hchild : listing.known.lookup name = some child) {next : Listing}
    (hnext : next = { listing with known := listing.known.filter (·.1 ≠ name)
                                   children := listing.children ++ [child] }) :
    next.tree.Sound next.tops [] ∧ Listed start id names next := by
  obtain ⟨hmem, hperm⟩ := tops_perm h hchild
  have hstep := h.step (List.filter_sublist (p := (·.1 ≠ name))) (.refl _ _)
  subst hnext
  refine ⟨hs.perm (hperm.trans ?_), (hstep.mono (List.subset_cons_self _ _)).add ?_ (h.named _ hmem) ?_ ?_ hname
    listing.changed⟩
  · rw [Listing.tops, ← List.append_cons]
    exact List.perm_middle.symm
  · exact h.under child (List.mem_append_right _ (List.mem_map_of_mem hmem))
  · simp
  · exact fun hin ↦ (List.nodup_append.1 h.labels).2.2 name hin name (List.mem_map_of_mem hmem) rfl

/-- **A child is let go of.** -/
theorem discard_known {room : ℕ} {path : Path} (hs : listing.tree.Sound listing.tops [])
    (h : Listed start id names listing) (hchild : listing.known.lookup name = some child)
    (hafter : discard room child path listing.tree = some after) {next : Listing}
    (hnext : next = { listing with known := listing.known.filter (·.1 ≠ name), tree := after }) :
    next.tree.Sound next.tops [] ∧ Listed start id names next := by
  obtain ⟨hsound, hframe⟩ := discard_sound (hs.perm (tops_perm h hchild).2) hafter
  subst hnext
  exact ⟨hsound, h.step List.filter_sublist hframe⟩

/-- **A child comes.** -/
theorem create_sound {world : World} {path : Path} {is_dir : Bool} {next : Listing}
    (hs : listing.tree.Sound listing.tops []) (h : Listed start id (name :: names) listing) (hname : name ∉ names)
    (hknown : name ∉ listing.known.map Prod.fst) (hafter : create world id path name is_dir listing = some next) :
    next.tree.Sound next.tops [] ∧ Listed start id names next := by
  have hless := h.mono (List.subset_cons_self name names)
  rw [create] at hafter
  by_cases hfull : MAX_NODES ≤ listing.tree.live
  · rw [if_pos hfull] at hafter
    cases hafter
  rw [if_neg hfull] at hafter
  rcases hinfo : world.stat (path.push (bytes name.1)) with _ | info
  · rw [hinfo] at hafter
    obtain rfl := Option.some.inj hafter
    exact ⟨hs, hless⟩
  rw [hinfo] at hafter
  dsimp only at hafter
  by_cases hwritable : is_dir && !info.writable
  · rw [if_pos hwritable] at hafter
    obtain rfl := Option.some.inj hafter
    exact ⟨hs, hless⟩
  rw [if_neg hwritable] at hafter
  generalize hnode : (⟨id, name, info.modified, if is_dir then .folder .default else .file⟩ : Node) = node at hafter
  rcases hnew : listing.tree.allocate node with ⟨new, after⟩
  have hkind : node.kind ≠ .free ∧ ∀ folder, node.kind = .folder folder → folder.children = [] := by
    subst hnode
    cases is_dir
    · exact ⟨fun heq ↦ (by cases heq), fun folder heq ↦ (by cases heq)⟩
    · exact ⟨fun heq ↦ (by cases heq), fun folder heq ↦ (by cases heq; rfl)⟩
  obtain ⟨hsound, hframe, hnewnode⟩ := allocate_sound hs hkind.1 hkind.2 hnew
  have hstep := h.step (.refl listing.known) hframe
  have hapart : name ∉ listing.children.map after.name := by
    intro hin
    obtain ⟨n, hn, heq⟩ := List.mem_map.1 hin
    exact hstep.apart n hn (heq ▸ List.mem_cons_self)
  have hadd : Listed start id names { listing with children := listing.children ++ [new], changed := true, tree := after } :=
    (hstep.mono (List.subset_cons_self _ _)).add (by simp [parent, hnewnode, ← hnode])
      (by simp [Tree.name, hnewnode, ← hnode]) hknown hapart hname true
  have htops : (new :: listing.tops).Perm ((listing.children ++ [new]) ++ (listing.known.map Prod.snd ++ [ROOT])) := by
    rw [Listing.tops, ← List.append_cons]
    exact List.perm_middle.symm
  rw [hnew] at hafter
  obtain rfl := Option.some.inj hafter
  cases is_dir
  · exact ⟨(hsound.perm htops).changes _, hadd.step (.refl _) (Frame.refl after _)⟩
  · exact ⟨hsound.perm htops, hadd⟩

/-- **What was found is compared** with what was known. -/
theorem listAll_sound {world : World} {room : ℕ} {path : Path} {found : List (Name × Bool)} {final : Listing}
    (hnames : (found.map Prod.fst).Nodup) (hs : listing.tree.Sound listing.tops [])
    (h : Listed start id (found.map Prod.fst) listing)
    (hafter : listAll world room id path found listing = some final) :
    final.tree.Sound final.tops [] ∧ Listed start id [] final := by
  induction found generalizing listing with
  | nil =>
    obtain rfl := Option.some.inj hafter
    exact ⟨hs, h⟩
  | cons entry found ih =>
    obtain ⟨name, is_dir⟩ := entry
    rw [List.map_cons, List.nodup_cons] at hnames
    obtain ⟨hname, hnames⟩ := hnames
    rw [List.map_cons] at h
    -- The rest is listed after a child has come, unless that ended the listing.
    have hcreated {listing : Listing} (hs : listing.tree.Sound listing.tops [])
        (h : Listed start id (name :: found.map Prod.fst) listing) (hknown : name ∉ listing.known.map Prod.fst)
        (hnone : create world id path name is_dir listing = none → final = listing)
        (hsome : ∀ next, create world id path name is_dir listing = some next →
          listAll world room id path found next = some final) :
        final.tree.Sound final.tops [] ∧ Listed start id [] final := by
      rcases hnext : create world id path name is_dir listing with _ | next
      · rw [hnone hnext]
        exact ⟨hs, h.mono (List.nil_subset _)⟩
      · obtain ⟨hs', h'⟩ := create_sound hs h hname hknown hnext
        exact ih hnames hs' h' (hsome next hnext)
    rw [listAll] at hafter
    rcases hchild : listing.known.lookup name with _ | child
    · rw [hchild] at hafter
      refine hcreated hs h (not_mem_of_lookup hchild) (fun hnone ↦ ?_) fun next hnext ↦ ?_
      · rw [hnone] at hafter
        exact (Option.some.inj hafter).symm
      · rw [hnext] at hafter
        exact hafter
    · rw [hchild] at hafter
      dsimp only at hafter
      by_cases hkind : (listing.tree.folder child).isSome = is_dir
      · rw [if_pos hkind] at hafter
        obtain ⟨hs', h'⟩ := keep_sound hs h hname hchild rfl
        exact ih hnames hs' h' hafter
      · rw [if_neg hkind] at hafter
        obtain ⟨after, hgone, hrest⟩ := Option.bind_eq_some_iff.1 hafter
        obtain ⟨hs', h'⟩ := discard_known hs h hchild hgone rfl
        refine hcreated hs' h' (by simp) (fun hnone ↦ ?_) fun next hnext ↦ ?_
        · rw [hnone] at hrest
          exact (Option.some.inj hrest).symm
        · rw [hnext] at hrest
          exact hrest

/-! ## Reading a folder -/

theorem found_names (entries : List DirEntry) :
    ((found entries).entries.map Prod.fst).Sublist (entries.filterMap DirEntry.name) := by
  refine (List.filter_sublist.map Prod.fst).trans ?_
  induction entries with
  | nil => exact .refl _
  | cons entry entries ih =>
    obtain ⟨_ | name, _ | is_dir⟩ := entry
    · exact ih
    · exact ih
    · exact ih.trans (List.sublist_cons_self _ _)
    · exact ih.cons_cons name

/-- The names that are wanted of a folder are different. -/
theorem wanted_nodup {world : World} {path : Path} {entries : List DirEntry} (rules : Rules)
    (h : world.read_dir path = some entries) : ((wanted path rules (found entries)).map Prod.fst).Nodup := by
  refine ((world.distinct h).sublist (found_names entries)).sublist ?_
  refine (List.filter_sublist.map Prod.fst).trans ?_
  by_cases hexcluded : (found entries).excluded
  · rw [if_pos hexcluded]
    exact List.nil_sublist _
  · rw [if_neg hexcluded]

/-- The listing starts with the children that the folder had. -/
theorem listed_start (h : tree.Sound roots freed) (hold : tree.folder id = some old) :
    (known tree old.children).map Prod.snd = old.children ∧
    Listed (tree.setFolder id { old with children := [] }) id names
      ⟨known tree old.children, [], false, tree.setFolder id { old with children := [] }⟩ := by
  have hlabels : (old.children.map tree.name).Nodup := children_eq hold ▸ h.forest.labels id
  have hsame : (tree.setFolder id { old with children := [] }).parent = tree.parent ∧
      (tree.setFolder id { old with children := [] }).name = tree.name := parent_setFolder _
  have hsnd : (known tree old.children).map Prod.snd = old.children := by
    simp [known_eq hlabels, Function.comp_def]
  refine ⟨hsnd, .refl _ _, fun n hn ↦ ?_, fun entry hentry ↦ ?_, ?_, fun n hn ↦ absurd hn List.not_mem_nil⟩
  · rw [List.nil_append, hsnd] at hn
    rw [hsame.1]
    exact h.forest.parent ((children_eq hold).symm ▸ hn)
  · rw [known_eq hlabels] at hentry
    obtain ⟨child, hchild, rfl⟩ := List.mem_map.1 hentry
    rw [hsame.2]
  · simpa [known_eq hlabels, Function.comp_def] using hlabels

/-- **The listing is put in place** when what is left of the old children is gone. -/
theorem listed_end {world : World} {room : ℕ} {path : Path} {final : Listing} (hs : final.tree.Sound final.tops [])
    (h : Listed start id [] final)
    (hafter : (world.order final.known).foldlM
      (fun tree entry ↦ discard room entry.2 (path.push (bytes entry.1.1)) tree) final.tree = some after) :
    after.Sound (final.children ++ [ROOT]) [] ∧ Listed start id [] { final with known := [], tree := after } := by
  have hperm : final.tops.Perm ((world.order final.known).map Prod.snd ++ (final.children ++ [ROOT])) :=
    (List.perm_append_comm_assoc _ _ _).trans (((world.order_perm final.known).map Prod.snd).symm.append_right _)
  obtain ⟨hsound, hframe⟩ := removeAll_sound (fun hs hstep ↦ discard_sound hs hstep) (hs.perm hperm) hafter
  exact ⟨hsound, h.step (List.nil_sublist _) hframe⟩

/-- **Reading a folder** keeps the forest, and touches only what is in it. -/
theorem read_sound {world : World} {room : ℕ} {path : Path} {rules : Rules} {in_repository changed : Bool} {modified : ℤ}
    (h : tree.Sound [ROOT] []) (hfolder : (tree.folder id).isSome)
    (hafter : tree.read world room id path rules in_repository modified = some (changed, after)) :
    after.Sound [ROOT] [] ∧ Beside tree after id ∧ (after.folder id).isSome := by
  rw [read] at hafter
  obtain ⟨watching, hwatching, hafter⟩ := Option.bind_eq_some_iff.1 hafter
  obtain ⟨hsound, halike⟩ := watch_sound h hwatching
  rcases hentries : world.read_dir path with _ | entries
  · rw [hentries] at hafter
    obtain ⟨rfl, rfl⟩ := Prod.mk.inj (Option.some.inj hafter)
    exact ⟨hsound, halike.beside id, (halike.folder id).trans hfolder⟩
  rw [hentries] at hafter
  dsimp only at hafter
  obtain ⟨old, hold, hafter⟩ := Option.bind_eq_some_iff.1 hafter
  obtain ⟨final, hfinal, hafter⟩ := Option.bind_eq_some_iff.1 hafter
  obtain ⟨rest, hrest, hafter⟩ := Option.bind_eq_some_iff.1 hafter
  obtain ⟨node, hnode, hafter⟩ := Option.bind_eq_some_iff.1 hafter
  obtain ⟨-, rfl⟩ := Prod.mk.inj (Option.some.inj hafter)
  -- The children are cut off, and the listing starts.
  generalize hstart : watching.setFolder id { old with children := [] } = start at hfinal
  have hother (n : Id) (hn : n ≠ id) : start.nodes[n]? = watching.nodes[n]? := hstart ▸ nodes_setFolder_of_ne _ hn
  have hcut : start.Sound (old.children ++ [ROOT]) [] := hstart ▸ hsound.cut hold (.of_eq (List.append_nil _).symm)
  obtain ⟨hknown, hlisted⟩ := listed_start hsound hold
  rw [hstart] at hlisted
  obtain ⟨hsound', hlisted'⟩ := listAll_sound (wanted_nodup _ hentries) (by rwa [Listing.tops, hknown]) hlisted hfinal
  -- What is reached from the root folder is as it was, the folder too.
  obtain ⟨hsound'', hlisted''⟩ := listed_end hsound' hlisted' hrest
  have hself : Reach start.view [ROOT] id := hsound.forest.reach_self (live_of_folder hold) fun p hp ↦
    (view_congr (hother p hp)).1
  obtain ⟨hsame, hreach⟩ := hlisted''.frame [ROOT] (List.Subset.refl _) id hself
  have hempty : node = { old with children := [] } := by
    have hsome : (watching.folder id).isSome := by rw [hold]; rfl
    rw [folder_congr hsame, ← hstart, folder_setFolder hsome] at hnode
    exact (Option.some.inj hnode).symm
  have hrest : (rest.folder id).isSome := by rw [hnode]; rfl
  refine ⟨hsound''.link hnode (by rw [hempty]) hreach rfl rfl ?_ ?_, (halike.beside id).trans (.of_nodes ?_), ?_⟩
  · exact fun n hn ↦ hlisted''.under n (List.mem_append_left _ hn)
  · exact (List.nodup_append.1 hlisted''.labels).1
  · intro n hn
    have hoff : Off start.view ROOT id n := hn.of_children fun p hp m hm _ ↦ (view_congr (hother p hp)).1 ▸ hm
    rw [nodes_setFolder_of_ne _ hn.ne, ← hother n hn.ne]
    exact (hlisted''.frame [ROOT] (List.Subset.refl _) n hoff.reach).1
  · rw [folder_setFolder hrest]
    rfl

end Tree

end Kestrel

import Luft.Tiling.Dwindle
import Mathlib.Data.List.Nodup
import Mathlib.Data.List.Perm.Basic

/-!
# The tree that the dwindle layout's objects make

`Tree.Shown` says that objects make a tree: each one the tree names is there, with its children and
its parent.  What a method does to the objects is one operation on the tree: `Tree.graft` for
`insert`, `Tree.prune` for `remove`, `Tree.relabel` for `swap`, `Tree.retune` for a new ratio.
-/

set_option autoImplicit false

namespace Tiling

/-- A tree of splits, each object with its number. -/
inductive Tree (T : Type*) where
  | leaf (id : Id) (window : T)
  | split (id : Id) (axis : Axis) (ratio : ℚ) (first second : Tree T)

/-- An object with another one wherever it has this child. -/
def Node.redirect {T : Type*} (child next : Id) : Node T → Node T
  | split axis ratio first second parent =>
    split axis ratio (if first = child then next else first)
      (if second = child then next else second) parent
  | node => node

namespace Tree

variable {T : Type*}

def id : Tree T → Id
  | leaf id _ => id
  | split id _ _ _ _ => id

def ids : Tree T → List Id
  | leaf id _ => [id]
  | split id _ _ first second => id :: (first.ids ++ second.ids)

/-- The leaves from first to last, each with its window. -/
def leaves : Tree T → List (T × Id)
  | leaf id window => [(window, id)]
  | split _ _ _ first second => first.leaves ++ second.leaves

def windows (t : Tree T) : List T := t.leaves.map Prod.fst

/-- The objects make this tree, below the given parent. -/
def Shown (nodes : Id → Option (Node T)) (parent : Option Id) : Tree T → Prop
  | leaf id window => nodes id = some (.leaf window parent)
  | split id axis ratio first second =>
    nodes id = some (.split axis ratio first.id second.id parent) ∧
      first.Shown nodes (some id) ∧ second.Shown nodes (some id)

variable {nodes nodes' : Id → Option (Node T)} {parent : Option Id} {t : Tree T}

@[simp] theorem id_leaf (id : Id) (window : T) : (leaf id window).id = id := rfl

@[simp] theorem id_split (id : Id) (axis : Axis) (ratio : ℚ) (first second : Tree T) :
    (split id axis ratio first second).id = id := rfl

theorem id_mem_ids (t : Tree T) : t.id ∈ t.ids := by
  cases t <;> exact List.mem_cons_self

theorem leaves_subset (t : Tree T) {window : T} {id : Id} (h : (window, id) ∈ t.leaves) :
    id ∈ t.ids := by
  induction t with
  | leaf id' window' =>
    rw [leaves, List.mem_singleton] at h
    cases h
    exact List.mem_cons_self
  | split id' axis ratio first second ihf ihs =>
    rw [leaves, List.mem_append] at h
    rw [ids, List.mem_cons, List.mem_append]
    exact .inr (h.imp ihf ihs)

theorem leaves_ids (t : Tree T) : (t.leaves.map Prod.snd).Sublist t.ids := by
  induction t with
  | leaf id window => exact List.Sublist.refl _
  | split id axis ratio first second ihf ihs =>
    rw [leaves, List.map_append, ids]
    exact (ihf.append ihs).cons id

theorem Shown.leaf_of_mem (h : t.Shown nodes parent) {window : T} {id : Id}
    (hmem : (window, id) ∈ t.leaves) : ∃ up, nodes id = some (.leaf window up) := by
  induction t generalizing parent with
  | leaf id' window' =>
    rw [leaves, List.mem_singleton] at hmem
    cases hmem
    exact ⟨parent, h⟩
  | split id' axis ratio first second ihf ihs =>
    rw [leaves, List.mem_append] at hmem
    rcases hmem with hmem | hmem
    · exact ihf h.2.1 hmem
    · exact ihs h.2.2 hmem

/-- Objects outside the tree do not matter to it. -/
theorem Shown.of_agree (h : t.Shown nodes parent)
    (hagree : ∀ id ∈ t.ids, nodes' id = nodes id) : t.Shown nodes' parent := by
  induction t generalizing parent with
  | leaf id window =>
    rw [Shown, hagree id List.mem_cons_self]
    exact h
  | split id axis ratio first second ihf ihs =>
    refine ⟨?_, ihf h.2.1 fun i hi ↦ ?_, ihs h.2.2 fun i hi ↦ ?_⟩
    · rw [hagree id List.mem_cons_self]
      exact h.1
    · exact hagree i (List.mem_cons_of_mem _ (List.mem_append_left _ hi))
    · exact hagree i (List.mem_cons_of_mem _ (List.mem_append_right _ hi))

theorem Shown.exists_node (h : t.Shown nodes parent) {id : Id} (hid : id ∈ t.ids) :
    ∃ node, nodes id = some node := by
  induction t generalizing parent with
  | leaf id' window =>
    rw [ids, List.mem_singleton] at hid
    exact ⟨_, hid ▸ h⟩
  | split id' axis ratio first second ihf ihs =>
    rw [ids, List.mem_cons, List.mem_append] at hid
    rcases hid with rfl | hid | hid
    · exact ⟨_, h.1⟩
    · exact ihf h.2.1 hid
    · exact ihs h.2.2 hid

theorem Shown.at_root (h : t.Shown nodes parent) :
    ∃ node, nodes t.id = some node ∧ node.parent = parent := by
  cases t with
  | leaf id window => exact ⟨_, h, rfl⟩
  | split id axis ratio first second => exact ⟨_, h.1, rfl⟩

/-- A tree hung up elsewhere: only its root object changes. -/
theorem Shown.rehang (h : t.Shown nodes parent) (hnd : t.ids.Nodup) {up : Option Id}
    (hroot : nodes' t.id = (nodes t.id).map (Node.withParent up))
    (hagree : ∀ id ∈ t.ids, id ≠ t.id → nodes' id = nodes id) : t.Shown nodes' up := by
  cases t with
  | leaf id window =>
    rw [Shown] at h ⊢
    rw [id_leaf, h] at hroot
    exact hroot
  | split id axis ratio first second =>
    rw [ids, List.nodup_cons, List.mem_append, not_or] at hnd
    rw [id_split, h.1] at hroot
    refine ⟨hroot, h.2.1.of_agree fun i hi ↦ ?_, h.2.2.of_agree fun i hi ↦ ?_⟩
    · refine hagree i (List.mem_cons_of_mem _ (List.mem_append_left _ hi)) ?_
      rintro rfl
      exact hnd.1.1 hi
    · refine hagree i (List.mem_cons_of_mem _ (List.mem_append_right _ hi)) ?_
      rintro rfl
      exact hnd.1.2 hi

/-- Whatever hangs below an object that the tree does not name is not in it. -/
theorem Shown.notMem_of_parent (h : t.Shown nodes parent) {child up : Id} {node : Node T}
    (hchild : nodes child = some node) (hup : node.parent = some up) (hnot : up ∉ t.ids)
    (hparent : parent ≠ some up) : child ∉ t.ids := by
  induction t generalizing parent with
  | leaf id window =>
    rw [ids, List.mem_singleton]
    rintro rfl
    rw [Shown, hchild, Option.some_inj] at h
    rw [h] at hup
    exact hparent hup
  | split id axis ratio first second ihf ihs =>
    rw [ids, List.mem_cons, List.mem_append, not_or, not_or] at hnot
    have hid : some id ≠ some up := fun heq ↦ hnot.1 (Option.some_inj.1 heq).symm
    rw [ids, List.mem_cons, List.mem_append, not_or, not_or]
    refine ⟨?_, ihf h.2.1 hnot.2.1 hid, ihs h.2.2 hnot.2.2 hid⟩
    rintro rfl
    rw [h.1, Option.some_inj] at hchild
    rw [← hchild] at hup
    exact hparent hup

/-! ## The windows -/

theorem length_ids_le (hnd : t.ids.Nodup) {next : ℕ} (hbelow : ∀ id ∈ t.ids, id < next) :
    t.ids.length ≤ next := by
  have hsub : t.ids ⊆ List.range next := fun i hi ↦ List.mem_range.2 (hbelow i hi)
  have hle := (List.subperm_of_subset hnd hsub).length_le
  rwa [List.length_range] at hle

/-- **Collecting the windows** goes through the leaves, and one step for each object is enough. -/
theorem Shown.collect {d : Dwindle T} (h : t.Shown d.nodes parent) {fuel : ℕ}
    (hfuel : t.ids.length ≤ fuel) : d.collect fuel t.id = some t.windows := by
  induction t generalizing parent fuel with
  | leaf id window =>
    rw [ids, List.length_singleton] at hfuel
    obtain ⟨fuel, rfl⟩ : ∃ n, fuel = n + 1 := ⟨fuel - 1, by omega⟩
    rw [Dwindle.collect, id_leaf, show d.nodes id = _ from h]
    rfl
  | split id axis ratio first second ihf ihs =>
    rw [ids, List.length_cons, List.length_append] at hfuel
    obtain ⟨fuel, rfl⟩ : ∃ n, fuel = n + 1 := ⟨fuel - 1, by omega⟩
    rw [Dwindle.collect, id_split, h.1]
    have hfirst : first.ids.length ≤ fuel := by omega
    have hsecond : second.ids.length ≤ fuel := by omega
    simp only [ihf h.2.1 hfirst, ihs h.2.2 hsecond]
    show some (first.windows ++ second.windows) = some ((first.leaves ++ second.leaves).map Prod.fst)
    rw [List.map_append, windows, windows]

/-- The last leaf is a leaf. -/
theorem Shown.lastFrom {d : Dwindle T} (h : t.Shown d.nodes parent) {fuel : ℕ}
    (hfuel : t.ids.length ≤ fuel) :
    ∃ window last, (window, last) ∈ t.leaves ∧ d.lastFrom fuel t.id = some last := by
  induction t generalizing parent fuel with
  | leaf id window =>
    rw [ids, List.length_singleton] at hfuel
    obtain ⟨fuel, rfl⟩ : ∃ n, fuel = n + 1 := ⟨fuel - 1, by omega⟩
    refine ⟨window, id, List.mem_cons_self, ?_⟩
    rw [Dwindle.lastFrom, id_leaf, show d.nodes id = _ from h]
  | split id axis ratio first second ihf ihs =>
    rw [ids, List.length_cons, List.length_append] at hfuel
    obtain ⟨fuel, rfl⟩ : ∃ n, fuel = n + 1 := ⟨fuel - 1, by omega⟩
    obtain ⟨window, last, hmem, hlast⟩ := ihs h.2.2 (by omega : second.ids.length ≤ fuel)
    refine ⟨window, last, List.mem_append_right _ hmem, ?_⟩
    rw [Dwindle.lastFrom, id_split, h.1]
    exact hlast

/-- Climbing from below gets to the root of the tree, or is done before, in a step for each object
at most. -/
theorem Shown.climb_root {d : Dwindle T} (h : t.Shown d.nodes parent) (found : Node T → Id → Bool)
    {id : Id} (hid : id ∈ t.ids) : ∃ k < t.ids.length,
      (∃ up, ∀ n, d.climb found (n + k) id = some up) ∨
        ∀ n, d.climb found (n + k) id = d.climb found n t.id := by
  have step {child up : Id} {node : Node T} {k : ℕ} (hparent : d.parentOf child = some up)
      (hup : d.nodes up = some node)
      (hk : ∀ n, d.climb found (n + k) id = d.climb found n child) :
      (∃ x, ∀ n, d.climb found (n + (k + 1)) id = some x) ∨
        ∀ n, d.climb found (n + (k + 1)) id = d.climb found n up := by
    have hclimb (n : ℕ) : d.climb found (n + (k + 1)) id =
        if found node child then some up else d.climb found n up := by
      rw [show n + (k + 1) = n + 1 + k by omega, hk, Dwindle.climb, hparent]
      simp only [hup, Option.any_some]
    cases hfound : found node child with
    | true => exact .inl ⟨up, fun n ↦ by rw [hclimb, hfound, if_pos rfl]⟩
    | false => exact .inr fun n ↦ by rw [hclimb, hfound, if_neg Bool.false_ne_true]
  induction t generalizing parent with
  | leaf id' window =>
    rw [ids, List.mem_singleton] at hid
    exact ⟨0, Nat.one_pos, .inr fun n ↦ by rw [hid]; rfl⟩
  | split id' axis ratio first second ihf ihs =>
    rw [ids, List.length_cons, List.length_append]
    rw [ids, List.mem_cons, List.mem_append] at hid
    have below {u : Tree T} (hu : u.Shown d.nodes (some id')) : d.parentOf u.id = some id' := by
      obtain ⟨node, hnode, hup⟩ := hu.at_root
      rw [Dwindle.parentOf, hnode]
      exact hup
    rcases hid with rfl | hid | hid
    · exact ⟨0, Nat.succ_pos _, .inr fun n ↦ rfl⟩
    · obtain ⟨k, hlt, ⟨up, hup⟩ | hk⟩ := ihf h.2.1 hid
      · exact ⟨k, by omega, .inl ⟨up, hup⟩⟩
      · exact ⟨k + 1, by omega, step (below h.2.1) h.1 hk⟩
    · obtain ⟨k, hlt, ⟨up, hup⟩ | hk⟩ := ihs h.2.2 hid
      · exact ⟨k, by omega, .inl ⟨up, hup⟩⟩
      · exact ⟨k + 1, by omega, step (below h.2.2) h.1 hk⟩

/-- **Climbing has enough fuel**: with more it finds the same. -/
theorem Shown.climb_enough {d : Dwindle T} (h : t.Shown d.nodes none) (found : Node T → Id → Bool)
    {id : Id} (hid : id ∈ t.ids) {fuel more : ℕ} (hfuel : t.ids.length ≤ fuel)
    (hmore : fuel ≤ more) : d.climb found more id = d.climb found fuel id := by
  obtain ⟨k, hlt, hclimb⟩ := h.climb_root found hid
  have hend (n : ℕ) : d.climb found (n + 1) t.id = none := by
    obtain ⟨node, hnode, hup⟩ := h.at_root
    rw [Dwindle.climb, Dwindle.parentOf, hnode]
    simp only [Option.bind_some, hup]
  rw [show more = more - k - 1 + 1 + k by omega, show fuel = fuel - k - 1 + 1 + k by omega]
  rcases hclimb with ⟨up, hup⟩ | hroot
  · rw [hup, hup]
  · rw [hroot, hroot, hend, hend]

/-! ## Children -/

theorem Shown.children (h : t.Shown nodes parent) {id : Id} (hid : id ∈ t.ids) {axis : Axis}
    {ratio : ℚ} {first second : Id} {up : Option Id}
    (hnode : nodes id = some (.split axis ratio first second up)) :
    first ∈ t.ids ∧ second ∈ t.ids := by
  induction t generalizing parent with
  | leaf id' window =>
    rw [ids, List.mem_singleton] at hid
    rw [hid, show nodes id' = _ from h] at hnode
    cases hnode
  | split id' axis' ratio' f s ihf ihs =>
    rw [ids, List.mem_cons, List.mem_append] at hid
    rw [ids]
    rcases hid with rfl | hid | hid
    · rw [h.1] at hnode
      cases hnode
      exact ⟨List.mem_cons_of_mem _ (List.mem_append_left _ f.id_mem_ids),
        List.mem_cons_of_mem _ (List.mem_append_right _ s.id_mem_ids)⟩
    · exact (ihf h.2.1 hid).imp (fun hm ↦ List.mem_cons_of_mem _ (List.mem_append_left _ hm))
        fun hm ↦ List.mem_cons_of_mem _ (List.mem_append_left _ hm)
    · exact (ihs h.2.2 hid).imp (fun hm ↦ List.mem_cons_of_mem _ (List.mem_append_right _ hm))
        fun hm ↦ List.mem_cons_of_mem _ (List.mem_append_right _ hm)

/-- **Where an object hangs**: its parent has it as exactly one of its children. -/
theorem Shown.parent_has (h : t.Shown nodes parent) (hnd : t.ids.Nodup) {child : Id}
    (hchild : child ∈ t.ids) {node : Node T} (hnode : nodes child = some node) :
    child = t.id ∧ node.parent = parent ∨
      ∃ up axis ratio first second up', node.parent = some up ∧ up ∈ t.ids ∧
        nodes up = some (.split axis ratio first second up') ∧
          (first = child ∧ second ≠ child ∨ first ≠ child ∧ second = child) := by
  induction t generalizing parent with
  | leaf id window =>
    rw [ids, List.mem_singleton] at hchild
    rw [hchild, show nodes id = _ from h, Option.some_inj] at hnode
    exact .inl ⟨hchild, by rw [← hnode]; rfl⟩
  | split id axis ratio f s ihf ihs =>
    rw [ids, List.nodup_cons, List.nodup_append'] at hnd
    obtain ⟨-, hf, hs, hdisjoint⟩ := hnd
    rw [ids, List.mem_cons, List.mem_append] at hchild
    rcases hchild with rfl | hchild | hchild
    · rw [h.1, Option.some_inj] at hnode
      exact .inl ⟨rfl, by rw [← hnode]; rfl⟩
    · rcases ihf h.2.1 hf hchild with ⟨hroot, hup⟩ | ⟨up, a, r, x, y, up', hup, hmem, hrest⟩
      · refine .inr ⟨id, axis, ratio, f.id, s.id, parent, hup, List.mem_cons_self, h.1, .inl
          ⟨hroot.symm, ?_⟩⟩
        rintro rfl
        exact hdisjoint hchild s.id_mem_ids
      · exact .inr ⟨up, a, r, x, y, up', hup,
          List.mem_cons_of_mem _ (List.mem_append_left _ hmem), hrest⟩
    · rcases ihs h.2.2 hs hchild with ⟨hroot, hup⟩ | ⟨up, a, r, x, y, up', hup, hmem, hrest⟩
      · refine .inr ⟨id, axis, ratio, f.id, s.id, parent, hup, List.mem_cons_self, h.1, .inr
          ⟨?_, hroot.symm⟩⟩
        rintro rfl
        exact hdisjoint f.id_mem_ids hchild
      · exact .inr ⟨up, a, r, x, y, up', hup,
          List.mem_cons_of_mem _ (List.mem_append_right _ hmem), hrest⟩

/-- Redirecting a child that the tree does not name changes nothing in it. -/
theorem Shown.redirect_of_notMem (h : t.Shown nodes parent) {child : Id} (hchild : child ∉ t.ids)
    (next : Id) {id : Id} (hid : id ∈ t.ids) :
    (nodes id).map (Node.redirect child next) = nodes id := by
  cases hnode : nodes id with
  | none => rfl
  | some node =>
    cases node with
    | leaf window up => rfl
    | split axis ratio first second up =>
      obtain ⟨hfirst, hsecond⟩ := h.children hid hnode
      rw [Option.map_some, Node.redirect, if_neg, if_neg]
      · rintro rfl
        exact hchild hsecond
      · rintro rfl
        exact hchild hfirst

theorem redirect_eq_self {node : Node T} {child next : Id}
    (h : ∀ axis ratio first second up, node = .split axis ratio first second up →
      first ≠ child ∧ second ≠ child) : node.redirect child next = node := by
  cases node with
  | leaf window up => rfl
  | split axis ratio first second up =>
    obtain ⟨hfirst, hsecond⟩ := h axis ratio first second up rfl
    rw [Node.redirect, if_neg hfirst, if_neg hsecond]

theorem Shown.child_parent (h : t.Shown nodes parent) {id : Id} (hid : id ∈ t.ids) {axis : Axis}
    {ratio : ℚ} {first second : Id} {up : Option Id}
    (hnode : nodes id = some (.split axis ratio first second up)) :
    (nodes first).bind Node.parent = some id ∧ (nodes second).bind Node.parent = some id := by
  induction t generalizing parent with
  | leaf id' window =>
    rw [ids, List.mem_singleton] at hid
    rw [hid, show nodes id' = _ from h] at hnode
    cases hnode
  | split id' axis' ratio' f s ihf ihs =>
    rw [ids, List.mem_cons, List.mem_append] at hid
    rcases hid with rfl | hid | hid
    · rw [h.1] at hnode
      cases hnode
      obtain ⟨nf, hnf, hpf⟩ := h.2.1.at_root
      obtain ⟨ns, hns, hps⟩ := h.2.2.at_root
      rw [hnf, hns]
      exact ⟨hpf, hps⟩
    · exact ihf h.2.1 hid
    · exact ihs h.2.2 hid

/-! ## A leaf grafted beside another -/

/-- The leaf `target` becomes a split of itself and a new leaf. -/
def graft (target node new : Id) (axis : Axis) (window : T) : Tree T → Tree T
  | leaf id w =>
    if id = target then split node axis (1 / 2) (leaf id w) (leaf new window) else leaf id w
  | split id axis' ratio first second =>
    split id axis' ratio (first.graft target node new axis window)
      (second.graft target node new axis window)

section Graft

variable {target node new : Id} {axis : Axis} {window : T}

theorem graft_of_notMem (h : target ∉ t.ids) : t.graft target node new axis window = t := by
  induction t with
  | leaf id w =>
    rw [ids, List.mem_singleton] at h
    rw [graft, if_neg (Ne.symm h)]
  | split id axis' ratio first second ihf ihs =>
    rw [ids, List.mem_cons, List.mem_append, not_or, not_or] at h
    rw [graft, ihf h.2.1, ihs h.2.2]

theorem Shown.graft_id (h : t.Shown nodes parent) {w : T} {up : Option Id}
    (htarget : nodes target = some (.leaf w up)) :
    (t.graft target node new axis window).id = if t.id = target then node else t.id := by
  cases t with
  | leaf id w' =>
    rw [graft, id_leaf]
    split <;> rfl
  | split id axis' ratio first second =>
    rw [graft, id_split, id_split, if_neg]
    rintro rfl
    rw [h.1] at htarget
    cases htarget

/-- **The objects of a grafted tree.** -/
theorem Shown.graft (h : t.Shown nodes parent) {w : T} {up : Option Id}
    (htarget : nodes target = some (.leaf w up))
    (hnode : nodes' node = some (.split axis (1 / 2) target new up))
    (hself : nodes' target = some (.leaf w (some node)))
    (hnew : nodes' new = some (.leaf window (some node)))
    (hrest : ∀ id ∈ t.ids, id ≠ target →
      nodes' id = (nodes id).map (Node.redirect target node)) :
    (t.graft target node new axis window).Shown nodes' parent := by
  induction t generalizing parent with
  | leaf id w' =>
    rw [Tree.graft]
    split
    · rename_i hid
      rw [hid, Shown, htarget, Option.some_inj] at h
      cases h
      rw [hid]
      exact ⟨hnode, hself, hnew⟩
    · rename_i hid
      rw [Shown, hrest id List.mem_cons_self hid, show nodes id = _ from h]
      rfl
  | split id axis' ratio first second ihf ihs =>
    refine ⟨?_, ihf h.2.1 fun i hi ↦ ?_, ihs h.2.2 fun i hi ↦ ?_⟩
    · rw [hrest id List.mem_cons_self, h.1, h.2.1.graft_id htarget, h.2.2.graft_id htarget]
      · rfl
      · rintro rfl
        rw [h.1] at htarget
        cases htarget
    · exact hrest i (List.mem_cons_of_mem _ (List.mem_append_left _ hi))
    · exact hrest i (List.mem_cons_of_mem _ (List.mem_append_right _ hi))

theorem graft_perm (node new : Id) (axis : Axis) (window : T) (hnd : t.ids.Nodup) {w : T}
    (hmem : (w, target) ∈ t.leaves) :
    (t.graft target node new axis window).ids.Perm (node :: new :: t.ids) ∧
      (t.graft target node new axis window).leaves.Perm ((window, new) :: t.leaves) := by
  induction t with
  | leaf id w' =>
    rw [leaves, List.mem_singleton] at hmem
    cases hmem
    rw [graft, if_pos rfl]
    refine ⟨(List.Perm.swap _ _ _).cons node, List.Perm.swap _ _ _⟩
  | split id axis' ratio first second ihf ihs =>
    rw [ids, List.nodup_cons, List.nodup_append'] at hnd
    obtain ⟨-, hf, hs, hdisjoint⟩ := hnd
    rw [leaves, List.mem_append] at hmem
    rw [graft, ids, leaves, ids, leaves]
    rcases hmem with hmem | hmem
    · obtain ⟨hids, hleaves⟩ := ihf hf hmem
      rw [graft_of_notMem fun hmem' ↦ hdisjoint (first.leaves_subset hmem) hmem']
      refine ⟨?_, hleaves.append_right _⟩
      refine ((hids.append_right second.ids).cons id).trans ?_
      rw [List.cons_append, List.cons_append]
      exact (List.Perm.swap _ _ _).trans ((List.Perm.swap _ _ _).cons node)
    · obtain ⟨hids, hleaves⟩ := ihs hs hmem
      rw [graft_of_notMem fun hmem' ↦ hdisjoint hmem' (second.leaves_subset hmem)]
      refine ⟨?_, (hleaves.append_left first.leaves).trans List.perm_middle⟩
      refine ((hids.append_left first.ids).cons id).trans ?_
      refine (List.perm_middle.cons id).trans ((List.Perm.swap _ _ _).trans (List.Perm.cons node ?_))
      exact (List.perm_middle.cons id).trans (List.Perm.swap _ _ _)

end Graft

/-! ## A leaf pruned, with the split above it -/

/-- The split `above` becomes its child beside the leaf `gone`. -/
def prune (above gone : Id) : Tree T → Tree T
  | leaf id window => leaf id window
  | split id axis ratio first second =>
    if id = above then (if first.id = gone then second else first)
    else split id axis ratio (first.prune above gone) (second.prune above gone)

section Prune

variable {above gone sibling : Id} {axis : Axis} {ratio : ℚ} {first second : Id} {up : Option Id}

theorem prune_of_notMem (h : above ∉ t.ids) : t.prune above gone = t := by
  induction t with
  | leaf id window => rfl
  | split id axis ratio first second ihf ihs =>
    rw [ids, List.mem_cons, List.mem_append, not_or, not_or] at h
    rw [prune, if_neg (Ne.symm h.1), ihf h.2.1, ihs h.2.2]

theorem Shown.prune_id (h : t.Shown nodes parent) (gone : Id)
    (habove : nodes above = some (.split axis ratio first second up)) :
    (t.prune above gone).id =
      if t.id = above then (if first = gone then second else first) else t.id := by
  cases t with
  | leaf id window =>
    rw [prune, if_neg]
    rintro rfl
    rw [id_leaf, show nodes id = _ from h] at habove
    cases habove
  | split id axis' ratio' f s =>
    rw [prune, id_split]
    split
    · rename_i hid
      rw [← hid, h.1] at habove
      cases habove
      split <;> rfl
    · rfl

/-- **The objects of a pruned tree.** -/
theorem Shown.prune (h : t.Shown nodes parent) (nodes' : Id → Option (Node T)) (gone : Id)
    (hnd : t.ids.Nodup)
    (habove : nodes above = some (.split axis ratio first second up)) (hmem : above ∈ t.ids)
    (hsib : nodes' (if first = gone then second else first) =
      ((nodes (if first = gone then second else first)).map
        (Node.redirect above (if first = gone then second else first))).map (Node.withParent up))
    (hrest : ∀ id ∈ t.ids, id ≠ (if first = gone then second else first) →
      nodes' id = (nodes id).map
        (Node.redirect above (if first = gone then second else first))) :
    (t.prune above gone).Shown nodes' parent := by
  induction t generalizing parent with
  | leaf id window =>
    rw [ids, List.mem_singleton] at hmem
    rw [hmem, show nodes id = _ from h] at habove
    cases habove
  | split id axis' ratio' f s ihf ihs =>
    have hnd' := hnd
    rw [ids, List.nodup_cons, List.nodup_append', List.mem_append, not_or] at hnd'
    obtain ⟨⟨hidf, hids⟩, hf, hs, hdisjoint⟩ := hnd'
    have inFirst {i : Id} (hi : i ∈ f.ids) : i ∈ (split id axis' ratio' f s).ids :=
      List.mem_cons_of_mem _ (List.mem_append_left _ hi)
    have inSecond {i : Id} (hi : i ∈ s.ids) : i ∈ (split id axis' ratio' f s).ids :=
      List.mem_cons_of_mem _ (List.mem_append_right _ hi)
    rw [Tree.prune]
    split
    · -- The split itself goes: the child that stays is hung up where it was.
      rename_i hid
      subst hid
      rw [h.1] at habove
      cases habove
      split
      · rename_i hfirst
        rw [if_pos hfirst] at hsib hrest
        refine h.2.2.rehang hs ?_ fun i hi hne ↦ ?_
        · rw [hsib, h.2.2.redirect_of_notMem hids _ s.id_mem_ids]
        · rw [hrest i (inSecond hi) hne, h.2.2.redirect_of_notMem hids _ hi]
      · rename_i hfirst
        rw [if_neg hfirst] at hsib hrest
        refine h.2.1.rehang hf ?_ fun i hi hne ↦ ?_
        · rw [hsib, h.2.1.redirect_of_notMem hidf _ f.id_mem_ids]
        · rw [hrest i (inFirst hi) hne, h.2.1.redirect_of_notMem hidf _ hi]
    · -- The split is further down: the side that does not hold it stays as it was.
      rename_i hid
      have hsibling {u : Tree T} {p : Option Id} (hu : u.Shown nodes p) (hin : above ∈ u.ids) :
          (if first = gone then second else first) ∈ u.ids := by
        obtain ⟨hx, hy⟩ := hu.children hin habove
        split
        · exact hy
        · exact hx
      have hroot (hne : id ≠ if first = gone then second else first) :
          nodes' id = some (.split axis' ratio' (f.prune above gone).id (s.prune above gone).id
            parent) := by
        rw [hrest id List.mem_cons_self hne, h.1, h.2.1.prune_id gone habove,
          h.2.2.prune_id gone habove]
        rfl
      rw [ids, List.mem_cons, List.mem_append] at hmem
      rcases hmem with rfl | hmem | hmem
      · exact absurd rfl hid
      · have hsib' := hsibling h.2.1 hmem
        have hout : above ∉ s.ids := fun hin ↦ hdisjoint hmem hin
        refine ⟨hroot ?_, ihf h.2.1 hf hmem fun i hi ↦ hrest i (inFirst hi), ?_⟩
        · rintro heq
          exact hidf (heq ▸ hsib')
        · rw [prune_of_notMem hout]
          refine h.2.2.of_agree fun i hi ↦ ?_
          rw [hrest i (inSecond hi), h.2.2.redirect_of_notMem hout _ hi]
          rintro rfl
          exact hdisjoint hsib' hi
      · have hsib' := hsibling h.2.2 hmem
        have hout : above ∉ f.ids := fun hin ↦ hdisjoint hin hmem
        refine ⟨hroot ?_, ?_, ihs h.2.2 hs hmem fun i hi ↦ hrest i (inSecond hi)⟩
        · rintro heq
          exact hids (heq ▸ hsib')
        · rw [prune_of_notMem hout]
          refine h.2.1.of_agree fun i hi ↦ ?_
          rw [hrest i (inFirst hi), h.2.1.redirect_of_notMem hout _ hi]
          rintro rfl
          exact hdisjoint hi hsib'

theorem prune_ids (t : Tree T) (above gone : Id) :
    (t.prune above gone).ids.Sublist t.ids := by
  induction t with
  | leaf id window => exact List.Sublist.refl _
  | split id axis ratio f s ihf ihs =>
    rw [prune]
    split
    · split
      · exact (List.sublist_append_right _ _).cons id
      · exact (List.sublist_append_left _ _).cons id
    · exact (ihf.append ihs).cons_cons id

/-- What a pruned tree loses is its leaf. -/
theorem Shown.prune_leaves (h : t.Shown nodes parent) (hnd : t.ids.Nodup)
    (habove : nodes above = some (.split axis ratio first second up)) (hmem : above ∈ t.ids)
    (hgone : first = gone ∧ second ≠ gone ∨ first ≠ gone ∧ second = gone) {w : T} {up' : Option Id}
    (hleaf : nodes gone = some (.leaf w up')) :
    (t.leaves).Perm ((w, gone) :: (t.prune above gone).leaves) := by
  induction t generalizing parent with
  | leaf id window =>
    rw [ids, List.mem_singleton] at hmem
    rw [hmem, show nodes id = _ from h] at habove
    cases habove
  | split id axis' ratio' f s ihf ihs =>
    rw [ids, List.nodup_cons, List.nodup_append'] at hnd
    obtain ⟨-, hf, hs, hdisjoint⟩ := hnd
    have isLeaf {u : Tree T} {p : Option Id} (hu : u.Shown nodes p) (hid : u.id = gone) :
        u.leaves = [(w, gone)] := by
      cases u with
      | leaf id' w' =>
        rw [id_leaf] at hid
        subst hid
        rw [show nodes id' = _ from hu, Option.some_inj] at hleaf
        cases hleaf
        rfl
      | split id' a r x y =>
        rw [id_split] at hid
        rw [← hid, hu.1] at hleaf
        cases hleaf
    rw [Tree.prune, leaves]
    split
    · rename_i hid
      rw [← hid, h.1] at habove
      cases habove
      rcases hgone with ⟨hx, hy⟩ | ⟨hx, hy⟩
      · rw [if_pos hx, isLeaf h.2.1 hx]
        exact List.Perm.refl _
      · rw [if_neg hx, isLeaf h.2.2 hy]
        exact List.perm_append_singleton _ _
    · rename_i hid
      rw [leaves]
      rw [ids, List.mem_cons, List.mem_append] at hmem
      rcases hmem with rfl | hmem | hmem
      · exact absurd rfl hid
      · rw [prune_of_notMem fun hin ↦ hdisjoint hmem hin]
        exact (ihf h.2.1 hf hmem).append_right _
      · rw [prune_of_notMem fun hin ↦ hdisjoint hin hmem]
        exact ((ihs h.2.2 hs hmem).append_left _).trans List.perm_middle

end Prune

/-! ## Other windows, another ratio -/

def relabel (f : T → T) : Tree T → Tree T
  | leaf id window => leaf id (f window)
  | split id axis ratio first second => split id axis ratio (first.relabel f) (second.relabel f)

def retune (node : Id) (ratio : ℚ) : Tree T → Tree T
  | leaf id window => leaf id window
  | split id axis ratio' first second =>
    split id axis (if id = node then ratio else ratio') (first.retune node ratio)
      (second.retune node ratio)

@[simp] theorem relabel_id (f : T → T) (t : Tree T) : (t.relabel f).id = t.id := by
  cases t <;> rfl

@[simp] theorem relabel_ids (f : T → T) (t : Tree T) : (t.relabel f).ids = t.ids := by
  induction t with
  | leaf id window => rfl
  | split id axis ratio first second ihf ihs => rw [relabel, ids, ids, ihf, ihs]

theorem relabel_leaves (f : T → T) (t : Tree T) :
    (t.relabel f).leaves = t.leaves.map fun leaf ↦ (f leaf.1, leaf.2) := by
  induction t with
  | leaf id window => rfl
  | split id axis ratio first second ihf ihs => rw [relabel, leaves, leaves, ihf, ihs, List.map_append]

@[simp] theorem retune_id (node : Id) (ratio : ℚ) (t : Tree T) : (t.retune node ratio).id = t.id := by
  cases t <;> rfl

@[simp] theorem retune_ids (node : Id) (ratio : ℚ) (t : Tree T) :
    (t.retune node ratio).ids = t.ids := by
  induction t with
  | leaf id window => rfl
  | split id axis ratio first second ihf ihs => rw [retune, ids, ids, ihf, ihs]

theorem retune_leaves (node : Id) (ratio : ℚ) (t : Tree T) :
    (t.retune node ratio).leaves = t.leaves := by
  induction t with
  | leaf id window => rfl
  | split id axis ratio first second ihf ihs => rw [retune, leaves, leaves, ihf, ihs]

theorem Shown.relabel (h : t.Shown nodes parent) (f : T → T)
    (hleaves : ∀ window id, (window, id) ∈ t.leaves →
      nodes' id = (nodes id).map (Node.withWindow (f window)))
    (hrest : ∀ id ∈ t.ids, (∀ window, (window, id) ∉ t.leaves) → nodes' id = nodes id)
    (hnd : t.ids.Nodup) : (t.relabel f).Shown nodes' parent := by
  induction t generalizing parent with
  | leaf id window =>
    rw [Tree.relabel, Shown, hleaves window id List.mem_cons_self, show nodes id = _ from h]
    rfl
  | split id axis ratio first second ihf ihs =>
    rw [ids, List.nodup_cons, List.nodup_append', List.mem_append, not_or] at hnd
    obtain ⟨⟨hidf, hids⟩, hf, hs, hdisjoint⟩ := hnd
    refine ⟨?_, ihf h.2.1 (fun w i hi ↦ hleaves w i (List.mem_append_left _ hi)) ?_ hf,
      ihs h.2.2 (fun w i hi ↦ hleaves w i (List.mem_append_right _ hi)) ?_ hs⟩
    · rw [hrest id List.mem_cons_self, h.1, relabel_id, relabel_id]
      intro w hw
      rcases List.mem_append.1 hw with hw | hw
      · exact hidf (first.leaves_subset hw)
      · exact hids (second.leaves_subset hw)
    · intro i hi hnot
      refine hrest i (List.mem_cons_of_mem _ (List.mem_append_left _ hi)) fun w hw ↦ ?_
      rcases List.mem_append.1 hw with hw | hw
      · exact hnot w hw
      · exact hdisjoint hi (second.leaves_subset hw)
    · intro i hi hnot
      refine hrest i (List.mem_cons_of_mem _ (List.mem_append_right _ hi)) fun w hw ↦ ?_
      rcases List.mem_append.1 hw with hw | hw
      · exact hdisjoint (first.leaves_subset hw) hi
      · exact hnot w hw

theorem Shown.retune (h : t.Shown nodes parent) (node : Id) (ratio : ℚ)
    (hagree : ∀ id ∈ t.ids, nodes' id =
      if id = node then (nodes id).map (Node.withRatio ratio) else nodes id) :
    (t.retune node ratio).Shown nodes' parent := by
  induction t generalizing parent with
  | leaf id window =>
    rw [Tree.retune, Shown, hagree id List.mem_cons_self, show nodes id = _ from h]
    split <;> rfl
  | split id axis ratio' first second ihf ihs =>
    refine ⟨?_, ihf h.2.1 fun i hi ↦ ?_, ihs h.2.2 fun i hi ↦ ?_⟩
    · rw [hagree id List.mem_cons_self, h.1, retune_id, retune_id]
      split <;> rfl
    · exact hagree i (List.mem_cons_of_mem _ (List.mem_append_left _ hi))
    · exact hagree i (List.mem_cons_of_mem _ (List.mem_append_right _ hi))

end Tree

namespace Dwindle

variable {T : Type*} {d : Dwindle T} {t : Tree T}

/-- **What `replace` does to a tree**: every object has the new child in place of the old one. -/
theorem replace_spec (h : t.Shown d.nodes none) (hnd : t.ids.Nodup) (hroot : d.root = some t.id)
    {child : Id} (hchild : child ∈ t.ids) (next : Id) :
    (∀ id ∈ t.ids, (d.replace child next).nodes id = (d.nodes id).map (Node.redirect child next)) ∧
      (∀ id ∉ t.ids, (d.replace child next).nodes id = d.nodes id) ∧
      (d.replace child next).root = some (if t.id = child then next else t.id) := by
  have elsewhere {id : Id} (hid : id ∈ t.ids) (hnot : d.parentOf child ≠ some id) :
      (d.nodes id).map (Node.redirect child next) = d.nodes id := by
    cases hnode : d.nodes id with
    | none => rfl
    | some node =>
      rw [Option.map_some, Tree.redirect_eq_self]
      rintro axis ratio first second up rfl
      obtain ⟨hfirst, hsecond⟩ := h.child_parent hid hnode
      constructor
      · rintro rfl
        exact hnot hfirst
      · rintro rfl
        exact hnot hsecond
  obtain ⟨node, hnode⟩ := h.exists_node hchild
  rcases h.parent_has hnd hchild hnode with ⟨htop, hup⟩ | ⟨up, axis, ratio, first, second, up', hup,
      hmem, hparent, hwhich⟩
  · have hnone : d.parentOf child = none := by
      rw [parentOf, hnode]
      exact hup
    rw [replace, hnone]
    refine ⟨fun id hid ↦ (elsewhere hid (hnone ▸ (Option.some_ne_none id).symm)).symm,
      fun id _ ↦ rfl, ?_⟩
    rw [if_pos htop.symm]
  · have hsome : d.parentOf child = some up := by
      rw [parentOf, hnode]
      exact hup
    rw [replace, hsome]
    refine ⟨fun id hid ↦ ?_, fun id hid ↦ ?_, ?_⟩
    · show Function.update d.nodes up _ id = _
      rcases eq_or_ne id up with rfl | hne
      · rw [Function.update_self, hparent, Option.map_some, Option.map_some, Node.withChild,
          Node.redirect]
        rcases hwhich with ⟨hf, hs⟩ | ⟨hf, hs⟩
        · rw [if_pos hf, if_pos hf, if_neg hs]
        · rw [if_neg hf, if_neg hf, if_pos hs]
      · rw [Function.update_of_ne hne, elsewhere hid]
        rw [hsome]
        exact fun heq ↦ hne (Option.some_inj.1 heq).symm
    · show Function.update d.nodes up _ id = _
      rw [Function.update_of_ne]
      rintro rfl
      exact hid hmem
    · show d.root = _
      rw [hroot, if_neg]
      rintro rfl
      obtain ⟨top, htop, htopUp⟩ := h.at_root
      rw [hnode, Option.some_inj] at htop
      rw [htop, htopUp] at hup
      cases hup

end Dwindle

end Tiling

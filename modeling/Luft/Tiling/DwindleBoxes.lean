import Luft.Tiling.DwindleRuns

/-!
# The boxes that the dwindle layout gives out

`arrange` walks the tree and gives every object its box: `Tree.Boxed` says which.  Where every split
leaves at least a pixel to each side (`Tree.Roomy`), the windows' boxes are in the area and apart,
and the two halves of every split fill it exactly, with the gap between.
-/

set_option autoImplicit false

namespace Tiling

namespace Tree

variable {T : Type*} {t : Tree T} {nodes : Id → Option (Node T)} {parent : Option Id}

/-- Every object of the tree has the box that splitting makes, every window its leaf's. -/
def Boxed (gap : ℕ) (boxes : Id → Option Box) (placed : T → Option Box) : Box → Tree T → Prop
  | box, leaf id window => boxes id = some box ∧ placed window = some box
  | box, .split id axis ratio first second =>
    boxes id = some box ∧ first.Boxed gap boxes placed (Tiling.split box axis ratio gap).1 ∧
      second.Boxed gap boxes placed (Tiling.split box axis ratio gap).2

theorem Boxed.of_agree {gap : ℕ} {boxes boxes' : Id → Option Box} {placed placed' : T → Option Box}
    {box : Box} (h : t.Boxed gap boxes placed box) (hboxes : ∀ id ∈ t.ids, boxes' id = boxes id)
    (hplaced : ∀ w ∈ t.windows, placed' w = placed w) : t.Boxed gap boxes' placed' box := by
  induction t generalizing box with
  | leaf id window =>
    rw [Boxed, hboxes id List.mem_cons_self, hplaced window List.mem_cons_self]
    exact h
  | split id axis ratio first second ihf ihs =>
    refine ⟨?_, ihf h.2.1 (fun i hi ↦ ?_) fun w hw ↦ ?_, ihs h.2.2 (fun i hi ↦ ?_) fun w hw ↦ ?_⟩
    · rw [hboxes id List.mem_cons_self]
      exact h.1
    · exact hboxes i (List.mem_cons_of_mem _ (List.mem_append_left _ hi))
    · refine hplaced w ?_
      rw [windows, leaves, List.map_append]
      exact List.mem_append_left _ hw
    · exact hboxes i (List.mem_cons_of_mem _ (List.mem_append_right _ hi))
    · refine hplaced w ?_
      rw [windows, leaves, List.map_append]
      exact List.mem_append_right _ hw

theorem Boxed.placed {gap : ℕ} {boxes : Id → Option Box} {placed : T → Option Box} {box : Box}
    (h : t.Boxed gap boxes placed box) {w : T} (hw : w ∈ t.windows) : ∃ b, placed w = some b := by
  induction t generalizing box with
  | leaf id window =>
    rw [windows, leaves, List.map_singleton, List.mem_singleton] at hw
    exact ⟨box, hw ▸ h.2⟩
  | split id axis ratio first second ihf ihs =>
    rw [windows, leaves, List.map_append, List.mem_append] at hw
    exact hw.elim (ihf h.2.1) (ihs h.2.2)

/-- **Arranging a tree** gives every object and window its box, and nothing else one. -/
theorem Shown.visit [DecidableEq T] {d : Dwindle T} (h : t.Shown d.nodes parent)
    (hnd : t.ids.Nodup) (hwin : t.windows.Nodup) {fuel : ℕ} (hfuel : t.ids.length ≤ fuel)
    (box : Box) (boxes : Id → Option Box) (placed : T → Option Box) :
    ∃ boxes' placed', d.visit fuel t.id box (boxes, placed) = some (boxes', placed') ∧
      t.Boxed d.gap boxes' placed' box ∧ (∀ id ∉ t.ids, boxes' id = boxes id) ∧
      ∀ w ∉ t.windows, placed' w = placed w := by
  induction t generalizing parent fuel box boxes placed with
  | leaf id window =>
    rw [ids, List.length_singleton] at hfuel
    obtain ⟨fuel, rfl⟩ : ∃ n, fuel = n + 1 := ⟨fuel - 1, by omega⟩
    refine ⟨Function.update boxes id (some box), Function.update placed window (some box), ?_,
      ⟨Function.update_self _ _ _, Function.update_self _ _ _⟩, fun i hi ↦ ?_, fun w hw ↦ ?_⟩
    · rw [Dwindle.visit, id_leaf, show d.nodes id = _ from h]
    · refine Function.update_of_ne ?_ _ _
      rintro rfl
      exact hi List.mem_cons_self
    · refine Function.update_of_ne ?_ _ _
      rintro rfl
      exact hw List.mem_cons_self
  | split id axis ratio first second ihf ihs =>
    rw [ids, List.length_cons, List.length_append] at hfuel
    obtain ⟨fuel, rfl⟩ : ∃ n, fuel = n + 1 := ⟨fuel - 1, by omega⟩
    rw [ids, List.nodup_cons, List.nodup_append', List.mem_append, not_or] at hnd
    obtain ⟨⟨hidf, hids⟩, hf, hs, hdisjoint⟩ := hnd
    have hwindows : (split id axis ratio first second).windows = first.windows ++ second.windows := by
      rw [windows, leaves, List.map_append, windows, windows]
    rw [hwindows, List.nodup_append'] at hwin
    obtain ⟨hwf, hws, hwdisjoint⟩ := hwin
    obtain ⟨boxes₁, placed₁, hvisit₁, hboxed₁, hout₁, hrest₁⟩ := ihf h.2.1 hf hwf
      (by omega : first.ids.length ≤ fuel) (Tiling.split box axis ratio d.gap).1 (Function.update boxes id (some box)) placed
    obtain ⟨boxes₂, placed₂, hvisit₂, hboxed₂, hout₂, hrest₂⟩ := ihs h.2.2 hs hws
      (by omega : second.ids.length ≤ fuel) (Tiling.split box axis ratio d.gap).2 boxes₁ placed₁
    refine ⟨boxes₂, placed₂, ?_, ⟨?_, ?_, hboxed₂⟩, fun i hi ↦ ?_, fun w hw ↦ ?_⟩
    · rw [Dwindle.visit, id_split, h.1]
      simp only [hvisit₁, hvisit₂, Option.bind_eq_bind, Option.bind_some]
    · rw [hout₂ id hids, hout₁ id hidf, Function.update_self]
    · refine hboxed₁.of_agree (fun i hi ↦ hout₂ i fun hin ↦ hdisjoint hi hin) fun w hw ↦ ?_
      exact hrest₂ w fun hin ↦ hwdisjoint hw hin
    · rw [ids, List.mem_cons, List.mem_append, not_or, not_or] at hi
      rw [hout₂ i hi.2.2, hout₁ i hi.2.1, Function.update_of_ne hi.1]
    · rw [hwindows, List.mem_append, not_or] at hw
      rw [hrest₂ w hw.2, hrest₁ w hw.1]

/-! ## Room -/

/-- Every split leaves at least a pixel to each side. -/
def Roomy (gap : ℕ) : Box → Tree T → Prop
  | _, leaf _ _ => True
  | box, .split _ axis ratio first second =>
    0 < length (Tiling.split box axis ratio gap).1 axis ∧
      0 < length (Tiling.split box axis ratio gap).2 axis ∧
      first.Roomy gap (Tiling.split box axis ratio gap).1 ∧
      second.Roomy gap (Tiling.split box axis ratio gap).2

variable {gap : ℕ} {boxes : Id → Option Box} {placed : T → Option Box} {box : Box}

theorem Boxed.at_root (h : t.Boxed gap boxes placed box) : boxes t.id = some box := by
  cases t with
  | leaf id window => exact h.1
  | split id axis ratio first second => exact h.1

/-- The boxes of a tree are in its own. -/
theorem Boxed.inside (h : t.Boxed gap boxes placed box) (hroomy : t.Roomy gap box) {w : T}
    (hw : w ∈ t.windows) : ∃ b, placed w = some b ∧ b.Inside box := by
  induction t generalizing box with
  | leaf id window =>
    rw [windows, leaves, List.map_singleton, List.mem_singleton] at hw
    exact ⟨box, hw ▸ h.2, Box.Inside.refl box⟩
  | split id axis ratio first second ihf ihs =>
    obtain ⟨hfirst, hsecond, hrf, hrs⟩ := hroomy
    obtain ⟨hinf, hins, -⟩ := (split_fills_of_pos hfirst hsecond).halves hfirst.le hsecond.le
    rw [windows, leaves, List.map_append, List.mem_append] at hw
    rcases hw with hw | hw
    · obtain ⟨b, hb, hin⟩ := ihf h.2.1 hrf hw
      exact ⟨b, hb, hin.trans hinf⟩
    · obtain ⟨b, hb, hin⟩ := ihs h.2.2 hrs hw
      exact ⟨b, hb, hin.trans hins⟩

/-- Two windows of a tree have boxes apart. -/
theorem Boxed.apart (h : t.Boxed gap boxes placed box) (hroomy : t.Roomy gap box)
    (hwin : t.windows.Nodup) {v w : T} (hv : v ∈ t.windows) (hw : w ∈ t.windows) (hne : v ≠ w)
    {a b : Box} (ha : placed v = some a) (hb : placed w = some b) : a.Apart b := by
  induction t generalizing box with
  | leaf id window =>
    rw [windows, leaves, List.map_singleton, List.mem_singleton] at hv hw
    exact absurd (hv.trans hw.symm) hne
  | split id axis ratio first second ihf ihs =>
    obtain ⟨hfirst, hsecond, hrf, hrs⟩ := hroomy
    obtain ⟨-, -, hapart⟩ := (split_fills_of_pos hfirst hsecond).halves hfirst.le hsecond.le
    have across {x y : T} (hx : x ∈ first.windows) (hy : y ∈ second.windows) {p q : Box}
        (hp : placed x = some p) (hq : placed y = some q) : p.Apart q := by
      obtain ⟨p', hp', hinp⟩ := h.2.1.inside hrf hx
      obtain ⟨q', hq', hinq⟩ := h.2.2.inside hrs hy
      rw [hp, Option.some_inj] at hp'
      rw [hq, Option.some_inj] at hq'
      exact hapart.inside (hp' ▸ hinp) (hq' ▸ hinq)
    rw [windows, leaves, List.map_append] at hv hw hwin
    rw [List.nodup_append'] at hwin
    rw [List.mem_append] at hv hw
    rcases hv with hv | hv <;> rcases hw with hw | hw
    · exact ihf h.2.1 hrf hwin.1 hv hw
    · exact across hv hw ha hb
    · exact (across hw hv hb ha).symm
    · exact ihs h.2.2 hrs hwin.2.1 hv hw

/-- Every split of a tree is filled by the boxes of its children. -/
theorem Boxed.fills (h : t.Boxed gap boxes placed box) (hroomy : t.Roomy gap box)
    (hshown : t.Shown nodes parent) {id : Id} (hid : id ∈ t.ids) {axis : Axis} {ratio : ℚ}
    {first second : Id} {up : Option Id}
    (hnode : nodes id = some (.split axis ratio first second up)) :
    ∃ b b₁ b₂, boxes id = some b ∧ boxes first = some b₁ ∧ boxes second = some b₂ ∧
      Fills axis gap b b₁ b₂ := by
  induction t generalizing box parent with
  | leaf id' window =>
    rw [ids, List.mem_singleton] at hid
    rw [hid, show nodes id' = _ from hshown] at hnode
    cases hnode
  | split id' axis' ratio' f s ihf ihs =>
    obtain ⟨hfirst, hsecond, hrf, hrs⟩ := hroomy
    rw [ids, List.mem_cons, List.mem_append] at hid
    rcases hid with rfl | hid | hid
    · rw [hshown.1] at hnode
      cases hnode
      exact ⟨_, _, _, h.1, h.2.1.at_root, h.2.2.at_root, split_fills_of_pos hfirst hsecond⟩
    · exact ihf h.2.1 hrf hshown.2.1 hid
    · exact ihs h.2.2 hrs hshown.2.2 hid

end Tree

namespace Dwindle

variable {T : Type*} {d : Dwindle T} {t : Tree T}

/-- The windows of a layout, as its map has them. -/
theorem ShowsTree.mem_windows (h : d.ShowsTree t) (w : T) :
    w ∈ t.windows ↔ (d.leaves w).isSome := by
  rw [Tree.windows, List.mem_map]
  constructor
  · rintro ⟨⟨v, id⟩, hmem, rfl⟩
    rw [(h.leaves v id).2 hmem]
    rfl
  · intro hsome
    obtain ⟨id, hid⟩ := Option.isSome_iff_exists.1 hsome
    exact ⟨(w, id), (h.leaves w id).1 hid, rfl⟩

/-- Room, as the boxes given out show it. -/
theorem roomy_of_boxes {boxes : Id → Option Box} {placed : T → Option Box} {gap : ℕ} {box : Box}
    {parent : Option Id} {nodes : Id → Option (Node T)} (hshown : t.Shown nodes parent)
    (hboxed : t.Boxed gap boxes placed box)
    (h : ∀ id axis ratio first second up c a b,
      nodes id = some (.split axis ratio first second up) → boxes id = some c →
        boxes first = some a → boxes second = some b → 0 < length a axis ∧ 0 < length b axis) :
    t.Roomy gap box := by
  induction t generalizing box parent with
  | leaf id window => trivial
  | split id axis ratio first second ihf ihs =>
    obtain ⟨hf, hs⟩ := h id axis ratio _ _ _ _ _ _ hshown.1 hboxed.1 hboxed.2.1.at_root
      hboxed.2.2.at_root
    exact ⟨hf, hs, ihf hshown.2.1 hboxed.2.1, ihs hshown.2.2 hboxed.2.2⟩

/-- A new ratio keeps the tree and the windows. -/
theorem shows_adjust {present : Set T} (h : ∃ t, d.Shows t)
    (hpresent : ∀ w, w ∈ present ↔ (d.leaves w).isSome) (node : Option Id) (ratio : ℚ → Box → ℚ) :
    (∃ t, (d.adjust node ratio).Shows t) ∧
      ∀ w, w ∈ present ↔ ((d.adjust node ratio).leaves w).isSome := by
  obtain ⟨t, ht⟩ := h
  obtain ⟨hleaves, hroot, -⟩ := d.adjust_leaves node ratio
  rw [hleaves]
  refine ⟨?_, hpresent⟩
  cases t with
  | none => exact ⟨none, hroot ▸ ht.1, hleaves ▸ ht.2⟩
  | some t =>
    obtain ⟨t', ht'⟩ := ShowsTree.adjust ht node ratio
    exact ⟨some t', ht'⟩

variable [DecidableEq T]

/-! ## Runs -/

/-- One call of a method. -/
inductive Call (T : Type*) where
  | insert (window : T) (beside : Option T)
  | remove (window : T)
  | swap (a b : T)
  | arrange (area : Box) (gap : ℕ)
  | resize (window : T) (direction : Direction) (step : ℚ)
  | moveEdge (window : T) (side : Direction) (coordinate : ℚ)

def call (d : Dwindle T) : Call T → Dwindle T
  | .insert window beside => d.insert window beside
  | .remove window => d.remove window
  | .swap a b => d.swap a b
  | .arrange area gap => ((d.arrange area gap).map Prod.fst).getD d
  | .resize window direction step => d.resize window direction step
  | .moveEdge window side coordinate => d.moveEdge window side coordinate

def run (calls : List (Call T)) : Dwindle T := calls.foldl call {}

/-- The windows present after a call. -/
def Call.present (windows : Set T) : Call T → Set T
  | .insert window _ => windows ∪ {window}
  | .remove window => windows \ {window}
  | _ => windows

/-- Only windows that are not present are inserted. -/
def Call.Fresh (windows : Set T) : Call T → Prop
  | .insert window _ => window ∉ windows
  | _ => True

/-- Nor are they inserted beside themselves. -/
def Call.Proper (windows : Set T) : Call T → Prop
  | .insert window beside => window ∉ windows ∧ beside ≠ some window
  | _ => True

/-- Every call of a list has a property of the windows then present. -/
def Along (property : Set T → Call T → Prop) : Set T → List (Call T) → Prop
  | _, [] => True
  | windows, call :: calls => property windows call ∧ Along property (call.present windows) calls

/-- What holds of a layout with these windows. -/
structure Tiled (d : Dwindle T) (present : Set T) : Prop where
  /-- Parents and children match, and the map is the leaves by their windows. -/
  tree : ∃ t, d.Shows t
  windows : ∃ order, d.windows = some order ∧ order.Nodup ∧ ∀ w, w ∈ order ↔ w ∈ present
  /-- Arranging gives every window a box. -/
  arrange : ∀ area gap, ∃ d' placed, d.arrange area gap = some (d', placed) ∧
    (∀ w, (placed w).isSome ↔ w ∈ present) ∧
    -- With a pixel to each side of every split, the boxes tile the area.
    ((∀ id axis ratio first second up c a b,
        d'.nodes id = some (.split axis ratio first second up) → d'.boxes id = some c →
          d'.boxes first = some a → d'.boxes second = some b →
            0 < length a axis ∧ 0 < length b axis) →
      (∀ v a, placed v = some a → a.Inside area) ∧
      (∀ v w a b, v ≠ w → placed v = some a → placed w = some b → a.Apart b) ∧
      ∀ id axis ratio first second up c, d'.nodes id = some (.split axis ratio first second up) →
        d'.boxes id = some c → ∃ a b, d'.boxes first = some a ∧ d'.boxes second = some b ∧
          Fills axis gap c a b)

/-- **Arranging a layout that shows a tree.** -/
theorem ShowsTree.arrange (h : d.ShowsTree t) (area : Box) (gap : ℕ) :
    ∃ d' placed, d.arrange area gap = some (d', placed) ∧ d'.nodes = d.nodes ∧
      d'.root = d.root ∧ d'.next = d.next ∧ d'.leaves = d.leaves ∧
      t.Boxed gap d'.boxes placed area ∧ (∀ id ∉ t.ids, d'.boxes id = none) ∧
      ∀ w ∉ t.windows, placed w = none := by
  obtain ⟨boxes, placed, hvisit, hboxed, hout, hrest⟩ := h.shown.visit
    (d := { d with gap := gap, boxes := fun _ ↦ none }) h.nodup h.nodup_windows
    (Tree.length_ids_le h.nodup h.below) area (fun _ ↦ none) fun _ ↦ none
  refine ⟨{ d with gap := gap, boxes := boxes }, placed, ?_, rfl, rfl, rfl, rfl, hboxed, hout, hrest⟩
  rw [Dwindle.arrange]
  split
  · rename_i hnone
    cases hnone.symm.trans h.root
  · rename_i root hsome
    cases Option.some_inj.1 (hsome.symm.trans h.root)
    rw [hvisit]
    rfl

theorem arrange_empty (hroot : d.root = none) (area : Box) (gap : ℕ) :
    d.arrange area gap = some ({ d with gap := gap, boxes := fun _ ↦ none }, fun _ ↦ none) := by
  rw [arrange, hroot]

/-- A layout that shows a tree, or is empty, is tiled. -/
theorem tiled_of_shows {present : Set T} (h : ∃ t, d.Shows t)
    (hpresent : ∀ w, w ∈ present ↔ (d.leaves w).isSome) : d.Tiled present := by
  obtain ⟨t, ht⟩ := h
  refine ⟨⟨t, ht⟩, ?_, fun area gap ↦ ?_⟩
  · cases t with
    | none =>
      refine ⟨[], by rw [windows, ht.1], List.nodup_nil, fun w ↦ ?_⟩
      rw [hpresent, ht.2]
      exact ⟨fun hw ↦ (by cases hw), fun hw ↦ (by cases hw)⟩
    | some t =>
      have ht : d.ShowsTree t := ht
      refine ⟨t.windows, ?_, ht.nodup_windows, fun w ↦ ?_⟩
      · rw [windows, ht.root]
        exact ht.shown.collect (Tree.length_ids_le ht.nodup ht.below)
      · rw [ht.mem_windows, hpresent]
  · cases t with
    | none =>
      refine ⟨_, _, arrange_empty ht.1 area gap, fun w ↦ ?_, fun _ ↦ ⟨?_, ?_, ?_⟩⟩
      · rw [hpresent, ht.2]
        exact Iff.rfl
      · intro v a hv
        cases hv
      · intro v w a b _ hv
        cases hv
      · intro id axis ratio first second up c _ hc
        cases hc
    | some t =>
      have ht : d.ShowsTree t := ht
      obtain ⟨d', placed, harrange, hnodes, -, -, -, hboxed, hout, hrest⟩ := ht.arrange area gap
      have member {w : T} {b : Box} (hw : placed w = some b) : w ∈ t.windows := by
        by_contra hnot
        rw [hrest w hnot] at hw
        cases hw
      refine ⟨d', placed, harrange, fun w ↦ ?_, fun hroom ↦ ?_⟩
      · rw [hpresent, ← ht.mem_windows]
        refine ⟨fun hw ↦ ?_, fun hw ↦ ?_⟩
        · obtain ⟨b, hb⟩ := Option.isSome_iff_exists.1 hw
          exact member hb
        · obtain ⟨b, hb⟩ := hboxed.placed hw
          rw [hb]
          rfl
      · have hshown : t.Shown d'.nodes none := hnodes ▸ ht.shown
        have hroomy := roomy_of_boxes hshown hboxed hroom
        refine ⟨fun v a hv ↦ ?_, fun v w a b hne hv hw ↦ ?_, ?_⟩
        · obtain ⟨b, hb, hin⟩ := hboxed.inside hroomy (member hv)
          rw [hv, Option.some_inj] at hb
          exact hb ▸ hin
        · exact hboxed.apart hroomy ht.nodup_windows (member hv) (member hw) hne hv hw
        · intro id axis ratio first second up c hnode hc
          have hid : id ∈ t.ids := by
            by_contra hnot
            rw [hout id hnot] at hc
            cases hc
          obtain ⟨b, b₁, b₂, hb, h₁, h₂, hfills⟩ := hboxed.fills hroomy hshown hid hnode
          rw [hc, Option.some_inj] at hb
          exact ⟨b₁, b₂, h₁, h₂, hb ▸ hfills⟩

/-- What an insert does to the windows in the map. -/
theorem isSome_update (leaves : T → Option Id) (window : T) (leaf : Option Id) (w : T) :
    (Function.update leaves window leaf w).isSome ↔
      if w = window then leaf.isSome else (leaves w).isSome := by
  rw [Function.update_apply]
  split <;> exact Iff.rfl

/-- **One call keeps the tree**, and the map has the windows that are then present. -/
theorem shows_call {c : Call T} {present : Set T} (h : ∃ t, d.Shows t)
    (hpresent : ∀ w, w ∈ present ↔ (d.leaves w).isSome) (hproper : c.Proper present) :
    (∃ t, (d.call c).Shows t) ∧ ∀ w, w ∈ c.present present ↔ ((d.call c).leaves w).isSome := by
  obtain ⟨t, ht⟩ := h
  cases c with
  | insert window beside =>
    constructor
    · cases t with
      | none => exact ⟨some _, ht.insert_none hproper.2⟩
      | some t =>
        have hnone : d.leaves window = none := by
          have hnot := hproper.1
          rw [hpresent, Bool.not_eq_true, Option.isSome_eq_false_iff, Option.isNone_iff_eq_none]
            at hnot
          exact hnot
        obtain ⟨t', ht'⟩ := ShowsTree.insert ht hnone hproper.2
        exact ⟨some t', ht'⟩
    · intro w
      rw [show d.call (.insert window beside) = d.insert window beside from rfl, insert_leaves,
        isSome_update]
      show w ∈ present ∪ {window} ↔ _
      rw [Set.mem_union, Set.mem_singleton_iff, hpresent]
      split
      · rename_i heq
        exact ⟨fun _ ↦ rfl, fun _ ↦ .inr heq⟩
      · rename_i hne
        exact ⟨fun hw ↦ hw.resolve_right hne, .inl⟩
  | remove window =>
    have hcall : d.call (.remove window) = d.remove window := rfl
    rw [hcall]
    cases hleaf : d.leaves window with
    | none =>
      have hsame : d.remove window = d := by rw [remove, hleaf]
      rw [hsame]
      refine ⟨⟨t, ht⟩, fun w ↦ ?_⟩
      show w ∈ present \ {window} ↔ _
      rw [Set.mem_sdiff, Set.mem_singleton_iff, hpresent]
      refine ⟨And.left, fun hw ↦ ⟨hw, ?_⟩⟩
      rintro rfl
      rw [hleaf] at hw
      cases hw
    | some leaf =>
      cases t with
      | none =>
        rw [ht.2] at hleaf
        cases hleaf
      | some t =>
        obtain ⟨hleaves, hshows⟩ := ShowsTree.remove ht hleaf
        refine ⟨hshows, fun w ↦ ?_⟩
        rw [hleaves, isSome_update]
        show w ∈ present \ {window} ↔ _
        rw [Set.mem_sdiff, Set.mem_singleton_iff, hpresent]
        split
        · rename_i heq
          exact ⟨fun hw ↦ absurd heq hw.2, fun hw ↦ (by cases hw)⟩
        · rename_i hne
          exact ⟨And.left, fun hw ↦ ⟨hw, hne⟩⟩
  | swap a b =>
    show (∃ t, (d.swap a b).Shows t) ∧ ∀ w, w ∈ present ↔ ((d.swap a b).leaves w).isSome
    cases ha : d.leaves a with
    | none =>
      have hsame : d.swap a b = d := by rw [swap, ha]
      rw [hsame]
      exact ⟨⟨t, ht⟩, hpresent⟩
    | some i =>
      cases hb : d.leaves b with
      | none =>
        have hsame : d.swap a b = d := by rw [swap, ha, hb]
        rw [hsame]
        exact ⟨⟨t, ht⟩, hpresent⟩
      | some j =>
        cases t with
        | none =>
          rw [ht.2] at ha
          cases ha
        | some t =>
          obtain ⟨hshows, hsame⟩ := ShowsTree.swap ht ha hb
          refine ⟨⟨some _, hshows⟩, fun w ↦ ?_⟩
          rw [hsame, hpresent]
  | arrange area gap =>
    show (∃ t, (((d.arrange area gap).map Prod.fst).getD d).Shows t) ∧
      ∀ w, w ∈ present ↔ ((((d.arrange area gap).map Prod.fst).getD d).leaves w).isSome
    cases t with
    | none =>
      rw [arrange_empty ht.1]
      exact ⟨⟨none, ht⟩, hpresent⟩
    | some t =>
      obtain ⟨d', placed, harrange, hnodes, hroot, hnext, hleaves, -⟩ :=
        ShowsTree.arrange ht area gap
      rw [harrange]
      show (∃ t, d'.Shows t) ∧ ∀ w, w ∈ present ↔ (d'.leaves w).isSome
      have ht : d.ShowsTree t := ht
      refine ⟨⟨some t, ?_⟩, hleaves ▸ hpresent⟩
      exact ⟨hroot ▸ ht.root, hnodes ▸ ht.shown, ht.nodup, hnext ▸ ht.below, hleaves ▸ ht.leaves⟩
  | resize window direction step => exact shows_adjust ⟨t, ht⟩ hpresent _ _
  | moveEdge window side coordinate => exact shows_adjust ⟨t, ht⟩ hpresent _ _

theorem shows_run (calls : List (Call T)) {present : Set T} (h : ∃ t, d.Shows t)
    (hpresent : ∀ w, w ∈ present ↔ (d.leaves w).isSome)
    (hproper : Along Call.Proper present calls) :
    (∃ t, (calls.foldl call d).Shows t) ∧
      ∀ w, w ∈ calls.foldl Call.present present ↔ ((calls.foldl call d).leaves w).isSome := by
  induction calls generalizing d present with
  | nil => exact ⟨h, hpresent⟩
  | cons c calls ih =>
    obtain ⟨hshows, hpresent'⟩ := shows_call h hpresent hproper.1
    exact ih hshows hpresent' hproper.2

/-- **Every run of the layout** whose inserts are of windows not present, beside others, leaves it
tiled. -/
theorem tiled_run (calls : List (Call T)) (h : Along Call.Proper ∅ calls) :
    (run calls).Tiled (calls.foldl Call.present ∅) := by
  obtain ⟨hshows, hpresent⟩ := shows_run (d := {}) calls ⟨none, rfl, fun _ ↦ rfl⟩
    (fun w ↦ ⟨fun hw ↦ hw.elim, fun hw ↦ (by cases hw)⟩) h
  exact tiled_of_shows hshows hpresent

/-- A run with inserts, a swap and a removal. -/
def someRun : List (Call ℕ) :=
  [.insert 1 none, .insert 2 (some 1), .arrange ⟨0, 0, 100, 60⟩ 4, .insert 3 (some 2), .swap 1 3,
    .resize 1 .right 10, .remove 2]

theorem tiled_someRun : (run someRun).Tiled (someRun.foldl Call.present ∅) := by
  refine tiled_run someRun ?_
  simp [someRun, Along, Call.Proper, Call.present]

/-- A window inserted beside itself: the new leaf is split from itself, and is there twice. -/
theorem not_tiled_beside_self : ¬ ∀ calls : List (Call ℕ), Along Call.Fresh ∅ calls →
    (run calls).Tiled (calls.foldl Call.present ∅) := by
  intro h
  obtain ⟨order, horder, hnd, -⟩ := (h [.insert 1 (some 1)] (by simp [Along, Call.Fresh])).windows
  have htwice : (run [Call.insert 1 (some 1)]).windows = some [1, 1] := rfl
  rw [htwice, Option.some_inj] at horder
  rw [← horder] at hnd
  revert hnd
  decide

end Dwindle

end Tiling

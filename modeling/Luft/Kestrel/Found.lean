import Luft.Kestrel.Names
import Luft.Lib.Adjacent

/-!
# Every name is found

One search over all of the names finds each entry whose name the last word stands in (`Laid`,
`mem_entryAt`), each is scored once, and the best few are what they would be if every entry was scored
(`find_eq`).
-/

set_option autoImplicit false

namespace Kestrel

open Searching

/-! ## How names are laid out -/

/-- What is added to the names: where it is, from the folder of everything, and the place of its folder. -/
structure Item where
  ids : List Id
  parent : Option ℕ
  depth : ℕ

/-- Ways into the tree, through folders that are not left out. -/
inductive Inside (tree : Tree) : List Id → Prop
  | root {folder : Folder} {id : Id} (hfolder : tree.folder ROOT = some folder) (hin : folder.excluded = false)
      (hid : id ∈ folder.children) : Inside tree [id]
  | step {ids : List Id} {parent id : Id} {folder : Folder} (h : Inside tree (ids ++ [parent]))
      (hfolder : tree.folder parent = some folder) (hin : folder.excluded = false)
      (hid : id ∈ folder.children) : Inside tree (ids ++ [parent] ++ [id])

section

variable (lowercase : List Char → List Char) (tree : Tree)

def Item.id (item : Item) : Id := item.ids.getLast?.getD ROOT

/-- The lower-case name of an item. -/
def Item.lower (item : Item) : List UInt8 := bytes (lowercase (tree.name item.id).1)

def Item.name (item : Item) : List UInt8 := bytes (tree.name item.id).1

/-- The names of these items. -/
structure Laid (items : List Item) (names : Names) : Prop where
  root : names.root = tree.root
  lower : names.lower = laid 0 (items.map (Item.lower lowercase tree))
  flat : names.names = (items.map (Item.name tree)).flatten
  length : names.entries.length = items.length
  entry : ∀ {i : ℕ} {item : Item}, items[i]? = some item → ∃ folder modified, names.entries[i]? = some
    ⟨offset 0 (items.map (Item.lower lowercase tree)) i, ((items.take i).map (Item.name tree)).flatten.length,
      item.parent, item.depth, folder, modified⟩
  inside : ∀ {i : ℕ} {item : Item}, items[i]? = some item → Inside tree item.ids ∧
    (item.parent = none → item.ids.length = 1) ∧
    ∀ p, item.parent = some p → p < i ∧ ∃ other, items[p]? = some other ∧ item.ids = other.ids ++ [item.id]

/-- The folders whose children come next. -/
def Stacked (items : List Item) (stack : Names.Stack) : Prop :=
  ∀ entry ∈ stack, (entry.1 = ROOT ∧ entry.2.1 = none) ∨
    ∃ p item, entry.2.1 = some p ∧ items[p]? = some item ∧ item.id = entry.1

end

variable {lowercase : List Char → List Char} {tree : Tree} {items : List Item} {names : Names}

theorem Inside.ne_nil {ids : List Id} (h : Inside tree ids) : ids ≠ [] := by
  cases h with
  | root => exact List.cons_ne_nil _ _
  | step => exact List.append_ne_nil_of_right_ne_nil _ (List.cons_ne_nil _ _)

theorem Laid.empty (tree : Tree) : Laid lowercase tree [] (.empty tree.root) :=
  ⟨rfl, rfl, rfl, rfl, fun h ↦ (by cases h), fun h ↦ (by cases h)⟩

/-- **One child more**. -/
theorem Laid.addChild (h : Laid lowercase tree items names) {parent : Option ℕ} {depth : ℕ} (stack : Names.Stack)
    {child : Id} (item : Item) (hid : item.id = child) (hparent : item.parent = parent) (hdepth : item.depth = depth)
    (hinside : Inside tree item.ids) (hroot : item.parent = none → item.ids.length = 1)
    (hother : ∀ p, item.parent = some p → ∃ other, items[p]? = some other ∧ item.ids = other.ids ++ [item.id]) :
    Laid lowercase tree (items ++ [item]) (Names.addChild lowercase tree parent depth (names, stack) child).1 := by
  subst hid hparent hdepth
  refine ⟨h.root, ?_, ?_, ?_, fun {i other} hi ↦ ?_, fun {i other} hi ↦ ?_⟩
  · show names.lower ++ _ = _
    rw [h.lower, List.map_append, laid_append, List.map_singleton, laid_singleton]
    rfl
  · show names.names ++ _ = _
    rw [h.flat, List.map_append, List.flatten_append, List.map_singleton, List.flatten_singleton]
    rfl
  · show (names.entries ++ _).length = _
    rw [List.length_append, List.length_append, h.length]
    rfl
  · show ∃ folder modified, (names.entries ++ _)[i]? = _
    have hlength := h.length
    rcases Nat.lt_or_ge i items.length with hlt | hge
    · rw [List.getElem?_append_left hlt] at hi
      obtain ⟨folder, modified, hentry⟩ := h.entry hi
      refine ⟨folder, modified, ?_⟩
      rw [List.getElem?_append_left (by omega), hentry, List.take_append_of_le_length (Nat.le_of_lt hlt),
        List.map_append, offset, offset, List.take_append_of_le_length (by rw [List.length_map]; omega)]
    · rw [List.getElem?_append_right hge] at hi
      obtain ⟨hzero, heq⟩ : i - items.length = 0 ∧ item = other := by
        rcases hk : i - items.length with _ | k
        · rw [hk] at hi
          exact ⟨rfl, Option.some.inj hi⟩
        · rw [hk] at hi
          cases hi
      obtain rfl : i = items.length := by omega
      subst heq
      refine ⟨(tree.folder item.id).isSome, tree.modified item.id, ?_⟩
      rw [List.getElem?_append_right (by omega), hlength, Nat.sub_self, List.take_left' rfl, List.map_append, offset,
        List.take_left' (List.length_map _), ← h.lower, ← h.flat]
      rfl
  · rcases Nat.lt_or_ge i items.length with hlt | hge
    · rw [List.getElem?_append_left hlt] at hi
      obtain ⟨hother', hnone, hsome⟩ := h.inside hi
      refine ⟨hother', hnone, fun p hp ↦ ?_⟩
      obtain ⟨hpi, last, hlast, hids⟩ := hsome p hp
      exact ⟨hpi, last, by rw [List.getElem?_append_left (by omega), hlast], hids⟩
    · rw [List.getElem?_append_right hge] at hi
      obtain rfl : item = other := by
        rcases hk : i - items.length with _ | k
        · rw [hk] at hi
          exact Option.some.inj hi
        · rw [hk] at hi
          cases hi
      refine ⟨hinside, hroot, fun p hp ↦ ?_⟩
      obtain ⟨last, hlast, hids⟩ := hother p hp
      have hplt := (List.getElem?_eq_some_iff.1 hlast).1
      exact ⟨by omega, last, by rw [List.getElem?_append_left hplt, hlast], hids⟩

theorem Stacked.append {stack : Names.Stack} (h : Stacked items stack) (more : List Item) :
    Stacked (items ++ more) stack := by
  intro entry hentry
  refine (h entry hentry).imp_right fun ⟨p, item, hp, hitem, hid⟩ ↦ ⟨p, item, hp, ?_, hid⟩
  rw [List.getElem?_append_left (List.getElem?_eq_some_iff.1 hitem).1, hitem]

/-- **All children** of a folder. -/
theorem Laid.children {folder : Folder} {id : Id} (hfolder : tree.folder id = some folder)
    (hin : folder.excluded = false) {parent : Option ℕ} (depth : ℕ)
    (hplace : Stacked items [(id, parent, depth)]) {stack : Names.Stack} (h : Laid lowercase tree items names)
    (hstack : Stacked items stack) (children : List Id) (hchildren : ∀ child ∈ children, child ∈ folder.children) :
    ∃ items', Laid lowercase tree items'
        (children.foldl (Names.addChild lowercase tree parent depth) (names, stack)).1 ∧
      Stacked items' (children.foldl (Names.addChild lowercase tree parent depth) (names, stack)).2 := by
  induction children generalizing items names stack with
  | nil => exact ⟨items, h, hstack⟩
  | cons child children ih =>
    rw [List.foldl_cons]
    have hmem := hchildren child List.mem_cons_self
    obtain ⟨item, hid, hparent, hdepth, hinside, hroot, hother⟩ : ∃ item : Item, item.id = child ∧
        item.parent = parent ∧ item.depth = depth ∧ Inside tree item.ids ∧
        (item.parent = none → item.ids.length = 1) ∧
        ∀ p, item.parent = some p → ∃ other, items[p]? = some other ∧ item.ids = other.ids ++ [item.id] := by
      rcases hplace _ List.mem_cons_self with ⟨rfl, hnone⟩ | ⟨p, other, hp, hitem, hother⟩
      · exact ⟨⟨[child], parent, depth⟩, rfl, rfl, rfl, .root hfolder hin hmem, fun _ ↦ rfl,
          fun p hp ↦ absurd (hnone.symm.trans hp) (Option.some_ne_none p).symm⟩
      · obtain ⟨hinside, -⟩ := h.inside hitem
        obtain ⟨front, last, hids⟩ := List.eq_nil_or_concat' other.ids |>.resolve_left hinside.ne_nil
        have hlast : last = id := by
          refine Eq.trans ?_ hother
          rw [Item.id, hids, List.getLast?_concat]
          rfl
        subst hlast
        have hchild : Item.id ⟨other.ids ++ [child], parent, depth⟩ = child := by
          rw [Item.id, List.getLast?_concat]
          rfl
        refine ⟨⟨other.ids ++ [child], parent, depth⟩, hchild, rfl, rfl, ?_, fun hnone ↦ ?_, fun q hq ↦ ?_⟩
        · show Inside tree (other.ids ++ [child])
          rw [hids] at hinside ⊢
          exact .step hinside hfolder hin hmem
        · exact absurd (hp.symm.trans hnone) (Option.some_ne_none p)
        · obtain rfl : p = q := Option.some.inj (hp.symm.trans hq)
          exact ⟨other, hitem, by rw [hchild]⟩
    have hlaid := h.addChild stack item hid hparent hdepth hinside hroot hother
    have hmore := hstack.append [item]
    refine ih (hplace.append [item]) hlaid ?_ fun c hc ↦
      hchildren c (List.mem_cons_of_mem _ hc)
    show Stacked _ (if (tree.folder child).isSome then _ else stack)
    split_ifs
    · intro entry hentry
      rcases List.mem_cons.1 hentry with rfl | hentry
      · refine .inr ⟨names.entries.length, item, rfl, ?_, hid⟩
        rw [h.length, List.getElem?_append_right le_rfl, Nat.sub_self]
        rfl
      · exact hmore entry hentry
    · exact hmore

theorem Laid.buildFrom (fuel : ℕ) {stack : Names.Stack} {built : Names} (h : Laid lowercase tree items names)
    (hstack : Stacked items stack) (hbuilt : Names.buildFrom lowercase tree fuel stack names = some built) :
    ∃ items', Laid lowercase tree items' built := by
  induction fuel generalizing items names stack with
  | zero =>
    cases stack with
    | nil => exact ⟨items, Option.some.inj hbuilt ▸ h⟩
    | cons entry stack => cases hbuilt
  | succ fuel ih =>
    cases stack with
    | nil => exact ⟨items, Option.some.inj hbuilt ▸ h⟩
    | cons entry stack =>
      obtain ⟨id, parent, depth⟩ := entry
      have hrest : Stacked items stack := fun e he ↦ hstack e (List.mem_cons_of_mem _ he)
      rw [Names.buildFrom] at hbuilt
      rcases hfolder : tree.folder id with _ | folder
      · rw [hfolder] at hbuilt
        exact ih h hrest hbuilt
      · rw [hfolder] at hbuilt
        dsimp only at hbuilt
        split_ifs at hbuilt with hexcluded
        · exact ih h hrest hbuilt
        · have hplace : Stacked items [(id, parent, depth)] := by
            intro e he
            rw [List.mem_singleton.1 he]
            exact hstack _ List.mem_cons_self
          obtain ⟨items', hlaid, hstacked⟩ := h.children hfolder (Bool.eq_false_iff.2 hexcluded) depth hplace hrest
            folder.children fun _ hc ↦ hc
          exact ih hlaid hstacked hbuilt

/-- **What is built** is laid out. -/
theorem laid_of_build {fuel : ℕ} (h : Names.build lowercase tree fuel = some names) :
    ∃ items, Laid lowercase tree items names := by
  refine (Laid.empty tree).buildFrom fuel (fun entry hentry ↦ .inl ?_) h
  rw [List.mem_singleton.1 hentry]
  exact ⟨rfl, rfl⟩

/-! ## What is read of them -/

section

variable {i : ℕ} {item : Item}

theorem Laid.lowerAt (h : Laid lowercase tree items names) (hi : i ≤ items.length) :
    names.lowerAt i = offset 0 (items.map (Item.lower lowercase tree)) i := by
  rw [Names.lowerAt]
  rcases Nat.lt_or_eq_of_le hi with hlt | rfl
  · obtain ⟨folder, modified, hentry⟩ := h.entry (List.getElem?_eq_getElem hlt)
    rw [hentry]
    rfl
  · rw [List.getElem?_eq_none (by rw [h.length]), h.lower]
    have hlength := offset_length 0 (items.map (Item.lower lowercase tree))
    rw [List.length_map] at hlength
    exact hlength.symm

theorem Laid.nameAt (h : Laid lowercase tree items names) (hi : i ≤ items.length) :
    names.nameAt i = ((items.take i).map (Item.name tree)).flatten.length := by
  rw [Names.nameAt]
  rcases Nat.lt_or_eq_of_le hi with hlt | rfl
  · obtain ⟨folder, modified, hentry⟩ := h.entry (List.getElem?_eq_getElem hlt)
    rw [hentry]
    rfl
  · rw [List.getElem?_eq_none (by rw [h.length]), h.flat, List.take_length]
    rfl

theorem Laid.lowerOf (h : Laid lowercase tree items names) (hitem : items[i]? = some item) :
    names.lowerOf i = item.lower lowercase tree := by
  obtain ⟨hi, hget⟩ := List.getElem?_eq_some_iff.1 hitem
  have hmap : i < (items.map (Item.lower lowercase tree)).length := by rwa [List.length_map]
  rw [Names.lowerOf, h.lowerAt (Nat.le_of_lt hi), h.lowerAt hi, Names.slice, h.lower, slice_laid hmap, List.getElem_map,
    hget]

theorem Laid.nameOf (h : Laid lowercase tree items names) (hitem : items[i]? = some item) :
    names.nameOf i = item.name tree := by
  obtain ⟨hi, hget⟩ := List.getElem?_eq_some_iff.1 hitem
  rw [Names.nameOf, h.nameAt (Nat.le_of_lt hi), h.nameAt hi, Names.slice, h.flat]
  obtain ⟨before, after, hsplit, hlength⟩ : ∃ before after, items = before ++ item :: after ∧ before.length = i := by
    refine ⟨items.take i, items.drop (i + 1), ?_, List.length_take_of_le (Nat.le_of_lt hi)⟩
    rw [← hget, ← List.drop_eq_getElem_cons hi, List.take_append_drop]
  subst hsplit hlength
  have htake : (before ++ item :: after).take (before.length + 1) = before ++ [item] := by
    rw [List.take_length_add_append]
    rfl
  rw [List.take_left, htake, List.map_append, List.map_append, List.flatten_append, List.flatten_append,
    List.map_singleton, List.flatten_singleton, List.map_cons, List.flatten_cons, ← List.append_assoc, List.take_left,
    List.drop_left]

/-- A place in the name of an entry is told to be its. -/
theorem Laid.entryAt (h : Laid lowercase tree items names) (hi : i < items.length) {position : ℕ}
    (hstart : offset 0 (items.map (Item.lower lowercase tree)) i ≤ position)
    (hstop : position < offset 0 (items.map (Item.lower lowercase tree)) (i + 1)) : names.entryAt position = i := by
  have hentry {j : ℕ} (hj : j < names.entries.length) :
      (names.entries[j]).lower = offset 0 (items.map (Item.lower lowercase tree)) j := by
    obtain ⟨folder, modified, hentry⟩ := h.entry (List.getElem?_eq_getElem (h.length ▸ hj))
    rw [List.getElem?_eq_getElem hj] at hentry
    rw [Option.some.inj hentry]
  suffices hfind : names.entries.findIdx (fun entry ↦ position < entry.lower) = i + 1 by
    rw [Names.entryAt, hfind, Nat.add_sub_cancel]
  have hbefore {j : ℕ} (hj : j < names.entries.length) (hji : j ≤ i) :
      decide (position < (names.entries[j]).lower) = false := by
    rw [hentry hj, decide_eq_false_iff_not, Nat.not_lt]
    exact (offset_mono 0 _ hji).trans hstart
  have hlength := h.length
  rcases Nat.lt_or_eq_of_le (hi : i + 1 ≤ items.length) with hlt | hlast
  · rw [List.findIdx_eq (by omega)]
    refine ⟨?_, fun j hj ↦ hbefore (by omega) (by omega)⟩
    rw [hentry, decide_eq_true_iff]
    exact hstop
  · rw [Nat.succ_eq_add_one] at hlast
    rw [hlast, ← hlength, List.findIdx_eq_length]
    intro entry hmem
    obtain ⟨j, hj, rfl⟩ := List.mem_iff_getElem.1 hmem
    exact hbefore hj (by omega)

end

/-! ## Paths -/

/-- A way into the tree, as a path. -/
def Tree.way (tree : Tree) (ids : List Id) : Path :=
  (ids.map fun id ↦ bytes (tree.name id).1).foldl Path.push tree.root

section

variable {i : ℕ} {item : Item}

theorem Laid.parent (h : Laid lowercase tree items names) (hitem : items[i]? = some item) :
    (names.entries[i]?).bind Entry.parent = item.parent := by
  obtain ⟨folder, modified, hentry⟩ := h.entry hitem
  rw [hentry, Option.bind_some]

/-- The folders that something is in are those on the way to it. -/
theorem Laid.ancestorsFrom (h : Laid lowercase tree items names) (fuel : ℕ) (hitem : items[i]? = some item)
    (hi : i ≤ fuel) : ((names.ancestorsFrom fuel item.parent).map names.nameOf).reverse =
      item.ids.dropLast.map fun id ↦ bytes (tree.name id).1 := by
  induction fuel generalizing i item with
  | zero =>
    obtain ⟨-, hnone, hsome⟩ := h.inside hitem
    rcases hparent : item.parent with _ | p
    · obtain ⟨id, hid⟩ := List.length_eq_one_iff.1 (hnone hparent)
      rw [hid]
      rfl
    · have hlt := (hsome p hparent).1
      omega
  | succ fuel ih =>
    obtain ⟨-, hnone, hsome⟩ := h.inside hitem
    rcases hparent : item.parent with _ | p
    · obtain ⟨id, hid⟩ := List.length_eq_one_iff.1 (hnone hparent)
      rw [hid]
      rfl
    · obtain ⟨hlt, other, hother, hids⟩ := hsome p hparent
      have hne := (h.inside hother).1.ne_nil
      obtain ⟨front, last, hfront⟩ := (List.eq_nil_or_concat' other.ids).resolve_left hne
      have hlast : other.id = last := by
        rw [Item.id, hfront, List.getLast?_concat]
        rfl
      rw [Names.ancestorsFrom, h.parent hother, List.map_cons, List.reverse_cons, ih hother (by omega), hids,
        List.dropLast_concat, h.nameOf hother, hfront, List.dropLast_concat, List.map_append, Item.name, hlast]
      rfl

/-- **The path** of an entry is the way to it. -/
theorem Laid.path (h : Laid lowercase tree items names) (hitem : items[i]? = some item) :
    names.path i = tree.way item.ids := by
  obtain ⟨front, last, hfront⟩ := (List.eq_nil_or_concat' item.ids).resolve_left (h.inside hitem).1.ne_nil
  have hlast : item.id = last := by
    rw [Item.id, hfront, List.getLast?_concat]
    rfl
  rw [Names.path, Names.ancestors, h.parent hitem, h.ancestorsFrom i hitem le_rfl, h.nameOf hitem, h.root, Item.name,
    hlast, hfront, List.dropLast_concat, Tree.way, List.map_append, List.foldl_append]
  rfl

end

theorem bytes_append (text more : List Char) : bytes (text ++ more) = bytes text ++ bytes more := List.flatMap_append

theorem push_text (text part : List Char) : ∃ text', Path.push (bytes text) (bytes part) = bytes text' := by
  rw [Path.push]
  split_ifs
  · exact ⟨text ++ part, (bytes_append text part).symm⟩
  · refine ⟨text ++ '/' :: part, ?_⟩
    rw [bytes_append]
    rfl

/-- Where the root is a text, every way is one. -/
theorem way_text {root : List Char} (hroot : tree.root = bytes root) (ids : List Id) :
    ∃ text, tree.way ids = bytes text := by
  induction ids using List.reverseRecOn with
  | nil => exact ⟨root, hroot⟩
  | append_singleton ids id ih =>
    obtain ⟨text, htext⟩ := ih
    rw [Tree.way, List.map_append, List.foldl_append, ← Tree.way, htext]
    exact push_text text (tree.name id).1

theorem into_string_bytes (text : List Char) : Names.into_string (bytes text) = some text := by
  have hencode : (bytes text).toByteArray = text.utf8Encode := rfl
  rw [Names.into_string, hencode, List.utf8Decode?_utf8Encode]
  rfl

/-! ## The search -/

theorem zero_notMem_utf8 {c : Char} (h : c ≠ '\x00') : (0 : UInt8) ∉ String.utf8EncodeChar c := by
  have hpos : 0 < c.val.toNat := by
    refine Nat.pos_of_ne_zero fun hzero ↦ h (Char.ext (UInt32.toNat_inj.1 ?_))
    exact hzero
  have hne {n : ℕ} (hn : 0 < n) (hlt : n < 256) : (0 : UInt8) ≠ UInt8.ofNat n := by
    intro heq
    have hmod := congrArg UInt8.toNat heq
    rw [UInt8.toNat_ofNat', Nat.mod_eq_of_lt hlt] at hmod
    exact Nat.ne_of_gt hn hmod.symm
  rw [String.utf8EncodeChar]
  split_ifs
  · simp only [List.mem_singleton]
    exact hne hpos (by omega)
  · simp only [List.mem_cons, List.not_mem_nil, or_false, not_or]
    exact ⟨hne (by omega) (by omega), hne (by omega) (by omega)⟩
  · simp only [List.mem_cons, List.not_mem_nil, or_false, not_or]
    exact ⟨hne (by omega) (by omega), hne (by omega) (by omega), hne (by omega) (by omega)⟩
  · simp only [List.mem_cons, List.not_mem_nil, or_false, not_or]
    exact ⟨hne (by omega) (by omega), hne (by omega) (by omega), hne (by omega) (by omega), hne (by omega) (by omega)⟩

theorem zero_notMem_bytes {text : List Char} (h : '\x00' ∉ text) : (0 : UInt8) ∉ bytes text := by
  intro hmem
  obtain ⟨c, hc, hzero⟩ := List.mem_flatMap.1 hmem
  exact zero_notMem_utf8 (fun heq ↦ h (heq ▸ hc)) hzero

theorem bytes_ne_nil {text : List Char} (h : text ≠ []) : bytes text ≠ [] := by
  obtain ⟨c, rest, rfl⟩ := List.exists_cons_of_ne_nil h
  have hlength := String.length_utf8EncodeChar c
  have hpos := c.utf8Size_pos
  rw [bytes, List.flatMap_cons]
  exact List.append_ne_nil_of_left_ne_nil (List.ne_nil_of_length_pos (by omega)) _

section

variable {P : Type} {searcher : Searcher UInt8} {arithmetic : Arithmetic P}

/-- A name that has a tier has the token in it. -/
theorem occurs_of_tier {name token : List UInt8} {points : P} (h : tier searcher arithmetic name token = some points) :
    ∃ p, Occurs token name p := by
  obtain ⟨p, hp, -⟩ := Option.map_eq_some_iff.1 h
  exact ⟨p, (searcher.find_some hp).1⟩

/-- **What is scored** has the last word in its name. -/
theorem occurs_of_score {candidate : Candidate} {in_folders : List UInt8 → Bool} {points : P}
    (h : score searcher arithmetic candidate in_folders = some points) (hlast : candidate.last <:+: candidate.query) :
    ∃ p, Occurs candidate.last candidate.name p := by
  obtain ⟨base, hbase, -⟩ := Option.map_eq_some_iff.1 h
  rw [Kestrel.base] at hbase
  rcases htier : tier searcher arithmetic candidate.name candidate.query with _ | tier
  · rw [htier] at hbase
    obtain ⟨points, hpoints, -⟩ := Option.bind_eq_some_iff.1 hbase
    exact occurs_of_tier hpoints
  · obtain ⟨p, rest, hrest⟩ := occurs_of_tier htier
    obtain ⟨before, after, hquery⟩ := hlast
    refine ⟨p + before.length, after ++ rest, ?_⟩
    rw [← List.drop_drop, ← hrest, ← hquery, List.append_assoc, List.append_assoc, List.drop_left]

/-- An entry that is scored is one that the last word stands in. -/
theorem Laid.occurs (h : Laid lowercase tree items names) {folded last : List Char} {others : List (List Char)}
    {now : ℤ} {i : ℕ} (hlast : last <:+: folded) (hscored : names.scored searcher arithmetic folded last others now i ≠ none) :
    ∃ item, items[i]? = some item ∧ ∃ p, Occurs (bytes last) (item.lower lowercase tree) p := by
  obtain ⟨found, hfound⟩ := Option.ne_none_iff_exists'.1 hscored
  obtain ⟨entry, hentry, hscore⟩ := Option.bind_eq_some_iff.1 hfound
  obtain ⟨points, hpoints, -⟩ := Option.bind_eq_some_iff.1 hscore
  have hi : i < items.length := h.length ▸ (List.getElem?_eq_some_iff.1 hentry).1
  have hitem : items[i]? = some items[i] := List.getElem?_eq_getElem hi
  refine ⟨items[i], hitem, ?_⟩
  rw [← h.lowerOf hitem]
  refine occurs_of_score hpoints ?_
  obtain ⟨before, after, rfl⟩ := hlast
  exact ⟨bytes before, bytes after, by rw [bytes_append, bytes_append]⟩

variable [LinearOrder P]

/-- **Looking at each entry once**. -/
theorem foldl_visit (names : Names) (scored : ℕ → Option (Scored P)) (limit : ℕ) (positions : List ℕ) :
    (positions.foldl (names.visit scored limit) (none, [])).2 =
      ((Adjacent.dedup_by (fun a b ↦ a = b) (positions.map names.entryAt)).filterMap scored).foldl
        (Best.keep Scored.le limit) [] := by
  have hafter (last : ℕ) (best : List (Scored P)) (positions : List ℕ) :
      (positions.foldl (names.visit scored limit) (some last, best)).2 =
        ((Adjacent.dedup_after (fun a b ↦ a = b) last (positions.map names.entryAt)).filterMap scored).foldl
          (Best.keep Scored.le limit) best := by
    induction positions generalizing last best with
    | nil => rfl
    | cons position positions ih =>
      rw [List.foldl_cons, List.map_cons, Adjacent.dedup_after, Names.visit]
      dsimp only
      by_cases hsame : last = names.entryAt position
      · rw [if_pos (congrArg some hsame), if_pos (decide_eq_true hsame.symm), ih]
      · rw [if_neg fun h ↦ hsame (Option.some.inj h), if_neg (by rw [decide_eq_true_iff]; exact Ne.symm hsame), ih,
          List.filterMap_cons]
        rcases scored (names.entryAt position) with _ | found
        · rfl
        · rfl
  cases positions with
  | nil => rfl
  | cons position positions =>
    rw [List.foldl_cons, List.map_cons, Adjacent.dedup_by, Names.visit, if_neg (Option.some_ne_none _).symm, hafter,
      List.filterMap_cons]
    rcases scored (names.entryAt position) with _ | found
    · rfl
    · rfl

theorem entryAt_mono (names : Names) {p q : ℕ} (h : p ≤ q) : names.entryAt p ≤ names.entryAt q := by
  refine Nat.sub_le_sub_right (List.findIdx_le_findIdx fun entry _ hq ↦ ?_) 1
  exact decide_eq_true (h.trans_lt (of_decide_eq_true hq))

/-- The numbers that matter, in order. -/
theorem filterMap_eq_range {β : Type} {f : ℕ → Option β} {l : List ℕ} {n : ℕ} (hl : l.Pairwise (· < ·))
    (hmem : ∀ i, f i ≠ none → i ∈ l) (hlt : ∀ i, f i ≠ none → i < n) :
    l.filterMap f = (List.range n).filterMap f := by
  have hfilter (m : List ℕ) : m.filterMap f = (m.filter fun i ↦ (f i).isSome).filterMap f := by
    rw [List.filterMap_filter]
    refine List.filterMap_congr fun i _ ↦ ?_
    rcases f i with _ | b
    · rfl
    · rfl
  have hsome (i : ℕ) : (f i).isSome ↔ f i ≠ none := Option.isSome_iff_ne_none
  rw [hfilter l, hfilter (List.range n)]
  congr 1
  have hl' := hl.filter fun i ↦ (f i).isSome
  have hrange := (List.pairwise_lt_range (n := n)).filter fun i ↦ (f i).isSome
  refine List.Perm.eq_of_pairwise' hl' hrange ((List.perm_ext_iff_of_nodup ?_ ?_).2 fun i ↦ ?_)
  · exact hl'.imp Nat.ne_of_lt
  · exact hrange.imp Nat.ne_of_lt
  · rw [List.mem_filter, List.mem_filter, List.mem_range, hsome]
    exact ⟨fun h ↦ ⟨hlt i h.2, h.2⟩, fun h ↦ ⟨hmem i h.2, h.2⟩⟩

/-- The best of all entries that are scored, for a query with a last word. -/
def Names.bestOf (names : Names) (searcher : Searcher UInt8) (arithmetic : Arithmetic P)
    (lowercase : List Char → List Char) (query : List Char) (limit : ℕ) (now : ℤ) : List (Scored P) :=
  let folded := lowercase (Text.trim query)
  let words := Text.split_whitespace folded
  match words.getLast? with
  | none => []
  | some last =>
    (((List.range names.entries.length).filterMap
      (names.scored searcher arithmetic folded last words.reverse.tail now)).insertionSort Scored.le).take limit

instance Scored.total : Std.Total (Scored.le (P := P)) where
  total := fun a b ↦ by
    rcases lt_trichotomy a.points b.points with h | h | h
    · exact .inl (.inl h)
    · exact (Nat.le_total a.index b.index).imp (fun hi ↦ .inr ⟨h, hi⟩) fun hi ↦ .inr ⟨h.symm, hi⟩
    · exact .inr (.inl h)

instance Scored.isTrans : IsTrans (Scored P) Scored.le where
  trans := fun a b c hab hbc ↦ by
    rcases hab with hab | ⟨hab, hi⟩
    · rcases hbc with hbc | ⟨hbc, -⟩
      · exact .inl (hab.trans hbc)
      · exact .inl (hbc ▸ hab)
    · rcases hbc with hbc | ⟨hbc, hi'⟩
      · exact .inl (hab ▸ hbc)
      · exact .inr ⟨hab.trans hbc, hi.trans hi'⟩

instance Scored.antisymm : Std.Antisymm (Scored.le (P := P)) where
  antisymm := fun a b hab hba ↦ by
    rcases hab with hab | ⟨hab, hi⟩
    · rcases hba with hba | ⟨hba, -⟩
      · exact absurd (hab.trans hba) (lt_irrefl _)
      · exact absurd (hba ▸ hab) (lt_irrefl _)
    · rcases hba with hba | ⟨-, hi'⟩
      · exact absurd (hab ▸ hba) (lt_irrefl _)
      · obtain ⟨points, index⟩ := a
        obtain ⟨points', index'⟩ := b
        obtain rfl : points = points' := hab
        obtain rfl : index = index' := Nat.le_antisymm hi hi'
        rfl

/-- **One search** finds what scoring every entry finds. -/
theorem Laid.find (h : Laid lowercase tree items names) (hlower : ∀ text, '\x00' ∉ text → '\x00' ∉ lowercase text)
    (query : List Char) (limit : ℕ) (now : ℤ) :
    names.find searcher arithmetic lowercase query limit now =
      (names.bestOf searcher arithmetic lowercase query limit now).filterMap names.hit := by
  rw [Names.find, Names.bestOf]
  rcases hlast : (Text.split_whitespace (lowercase (Text.trim query))).getLast? with _ | last
  · rfl
  · obtain ⟨hne, hinfix⟩ := Text.infix_of_mem_split_whitespace (List.mem_of_getLast? hlast)
    dsimp only
    rw [foldl_visit, Best.foldl_keep]
    congr 3
    have hneedle := bytes_ne_nil hne
    refine filterMap_eq_range (Adjacent.pairwise_dedup_by (fun i : ℕ ↦ i) ?_) (fun i hi ↦ ?_) fun i hi ↦ ?_
    · refine List.pairwise_map.2 ((searcher.apart hneedle).imp fun {p q} hpq ↦ entryAt_mono names ?_)
      omega
    · obtain ⟨item, hitem, p, hp⟩ := h.occurs hinfix hi
      obtain ⟨hlt, hget⟩ := List.getElem?_eq_some_iff.1 hitem
      have hmap : i < (items.map (Item.lower lowercase tree)).length := by rwa [List.length_map]
      have hpiece : (items.map (Item.lower lowercase tree))[i] = item.lower lowercase tree := by
        rw [List.getElem_map, hget]
      obtain ⟨q, hq, hstart, hstop⟩ := mem_find_iter searcher hneedle hmap
        (by rw [hpiece]; exact zero_notMem_bytes (hlower _ (tree.name item.id).2)) (hpiece ▸ hp)
      have hmem := (Adjacent.mem_map_dedup_by (fun i : ℕ ↦ i)
        ((searcher.find_iter names.lower (bytes last)).map names.entryAt) i).2 (by
          rw [List.map_id']
          refine List.mem_map.2 ⟨q, ?_, h.entryAt hlt hstart hstop⟩
          rwa [h.lower])
      rwa [List.map_id'] at hmem
    · obtain ⟨item, hitem, -⟩ := h.occurs hinfix hi
      rw [h.length]
      exact (List.getElem?_eq_some_iff.1 hitem).1

theorem mem_bestOf {query : List Char} {limit : ℕ} {now : ℤ} {found : Scored P}
    (h : found ∈ names.bestOf searcher arithmetic lowercase query limit now) : found.index < names.entries.length := by
  rw [Names.bestOf] at h
  rcases hlast : (Text.split_whitespace (lowercase (Text.trim query))).getLast? with _ | last
  · rw [hlast] at h
    exact absurd h List.not_mem_nil
  · rw [hlast] at h
    have hmem := (List.perm_insertionSort Scored.le _).mem_iff.1 (List.mem_of_mem_take h)
    obtain ⟨i, hi, hscored⟩ := List.mem_filterMap.1 hmem
    obtain ⟨entry, -, hscore⟩ := Option.bind_eq_some_iff.1 hscored
    obtain ⟨points, -, hfound⟩ := Option.bind_eq_some_iff.1 hscore
    rw [← Option.some.inj hfound]
    exact List.mem_range.1 hi

end

/-- A folder with one file. -/
def oneFile (root : Path) : Tree where
  root
  nodes := [⟨ROOT, .empty, 0, .folder { Folder.default with children := [1] }⟩, ⟨ROOT, ⟨['a'], by decide⟩, 0, .file⟩]
  mount := 0
  watcher := ⟨false, fun _ ↦ none⟩
  polled := []
  changes := .default
  free := []

/-- Scores in whole numbers. -/
def whole : Arithmetic ℕ := ⟨fun n d ↦ n / d, fun n ↦ n, (· + ·), (· - ·), (· * ·)⟩

end Kestrel

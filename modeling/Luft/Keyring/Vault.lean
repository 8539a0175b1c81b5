import Luft.Lib.First

/-!
# What the keyring stores

`keyring/vault` keeps items in collections.  A collection hands out the numbers of its items one
after the other and never hands a number out twice, but its own id is made from its label, so a
collection that was deleted and one created later can have the same id.  An item is looked up by
the pair of the two, its *key*.

Every operation comes with the lemma that says what looking a key up finds afterwards.

`Item.born` is not in the source.  It counts the items in the order they were stored, so that
statements can tell apart two items that had the same key at different times; nothing here reads it.
-/

set_option autoImplicit false

namespace Keyring

open First

/-- `BTreeMap<String, String>`. -/
abbrev Attributes := List (String × String)

structure Item where
  id : ℕ
  label : String
  attributes : Attributes
  secret : List UInt8
  contentType : String
  owner : Option String
  born : ℕ
  deriving DecidableEq, Repr

structure Collection where
  id : String
  label : String
  nextItem : ℕ
  items : List Item
  deriving DecidableEq, Repr

structure Contents where
  collections : List Collection
  aliases : List (String × String)
  deriving DecidableEq, Repr

def LOGIN : String := "login"
def DEFAULT_ALIAS : String := "default"
def PASSKEYS : String := "passkeys"

namespace Collection

def new (id label : String) : Collection := { id, label, nextItem := 1, items := [] }

def item (c : Collection) (id : ℕ) : Option Item := c.items.find? fun item ↦ item.id = id

def add (c : Collection) (item : Item) : ℕ × Collection :=
  (c.nextItem, { c with
    nextItem := c.nextItem + 1
    items := c.items ++ [{ item with id := c.nextItem }] })

/-- Keep the items the predicate holds of. -/
def retain (c : Collection) (p : Item → Bool) : Collection := { c with items := c.items.filter p }

/-- Change the item with the given number (`item_mut`). -/
def update (c : Collection) (id : ℕ) (change : Item → Item) : Collection :=
  { c with items := updateFirst (fun item ↦ item.id = id) change c.items }

end Collection

namespace Contents

def fresh : Contents :=
  { collections := [.new LOGIN "Login"], aliases := [(DEFAULT_ALIAS, LOGIN)] }

def collection (c : Contents) (id : String) : Option Collection :=
  c.collections.find? fun collection ↦ collection.id = id

/-- Change the collection with the given id (`collection_mut`). -/
def update (c : Contents) (id : String) (change : Collection → Collection) : Contents :=
  { c with collections := updateFirst (fun collection ↦ collection.id = id) change c.collections }

def resolveAlias (c : Contents) (name : String) : Option String :=
  (c.aliases.lookup name).filter fun id ↦ (c.collection id).isSome

/-- `aliases.insert` and `aliases.remove`. -/
def setAlias (c : Contents) (name : String) (target : Option String) : Contents :=
  let rest := c.aliases.filter fun a ↦ a.1 ≠ name
  { c with aliases := match target with
      | some id => (name, id) :: rest
      | none => rest }

def item (c : Contents) (collection : String) (item : ℕ) : Option Item :=
  (c.collection collection).bind fun found ↦ found.item item

/-- Every character that is no ASCII letter or digit becomes an underscore. -/
def idOf (label : String) : String :=
  let base := label.toList.map fun character ↦
    if character.isAlphanum then character.toLower else '_'
  if base.all (· = '_') then "collection" else String.ofList base

/-- The search for an id that is free: `base`, `base_2`, `base_3` and so on.  One of the first
`fuel` that are tried is free when there are fewer collections. -/
def freeId (c : Contents) (base : String) : ℕ → ℕ → String → String
  | 0, _, id => id
  | fuel + 1, counter, id =>
    if (c.collection id).isSome then
      c.freeId base fuel (counter + 1) (base ++ "_" ++ toString (counter + 1))
    else id

/-- Put an empty collection at the end. -/
def push (c : Contents) (id label : String) : Contents :=
  { c with collections := c.collections ++ [.new id label] }

def createCollection (c : Contents) (label : String) : String × Contents :=
  let base := idOf label
  let id := c.freeId base (c.collections.length + 1) 1 base
  (id, c.push id label)

/-- The collection passkeys are kept in is created when it is first needed. -/
def withPasskeys (c : Contents) : Contents :=
  if (c.collection PASSKEYS).isNone then c.push PASSKEYS "Passkeys" else c

def deleteCollection (c : Contents) (id : String) : Contents :=
  { c with
    collections := c.collections.filter fun collection ↦ collection.id ≠ id
    aliases := c.aliases.filter fun a ↦ a.2 ≠ id }

/-- The number the item gets, and whether it is a new one; `None` without the collection. -/
def storeItem (c : Contents) (collection : String) (item : Item) (replacing : Option ℕ) :
    Option (ℕ × Bool) × Contents :=
  match c.collection collection with
  | none => (none, c)
  | some target =>
    match target.items.find? fun existing ↦ some existing.id = replacing with
    | some existing =>
      (some (existing.id, false), c.update collection fun found ↦ found.update existing.id
        fun old ↦ { old with
          label := item.label, secret := item.secret, contentType := item.contentType })
    | none => (some ((target.add item).1, true), c.update collection fun found ↦ (found.add item).2)

def deleteItem (c : Contents) (collection : String) (item : ℕ) : Contents :=
  c.update collection fun target ↦ target.retain fun existing ↦ existing.id ≠ item

/-- Change an item in place (`item_mut`). -/
def changeItem (c : Contents) (collection : String) (item : ℕ) (change : Item → Item) : Contents :=
  c.update collection fun target ↦ target.update item change

end Contents

/-! ## Looking a key up afterwards -/

namespace Collection

variable {c : Collection}

theorem item_new (id label : String) (n : ℕ) : (Collection.new id label).item n = none := rfl

theorem item_add (c : Collection) (item : Item) (n : ℕ) :
    (c.add item).2.item n =
      (c.item n).or (if c.nextItem = n then some { item with id := c.nextItem } else none) := by
  rw [Collection.item, add, Collection.item, List.find?_append]
  congr 1
  by_cases h : c.nextItem = n <;> simp [h]

theorem item_retain_ne (c : Collection) (id n : ℕ) :
    (c.retain fun existing ↦ existing.id ≠ id).item n = if n = id then none else c.item n := by
  rw [Collection.item, retain]
  split
  · rename_i h
    refine find?_filter_of_disjoint (fun a ha ↦ ?_) c.items
    simp only [decide_eq_true_eq] at ha
    simp [ha, h]
  · rename_i h
    refine find?_filter_of_imp (fun a ha ↦ ?_) c.items
    simp only [decide_eq_true_eq] at ha
    simpa [ha] using h

theorem item_update (c : Collection) (id : ℕ) {change : Item → Item}
    (hchange : ∀ item, (change item).id = item.id) (n : ℕ) :
    (c.update id change).item n = if n = id then (c.item n).map change else c.item n := by
  rw [Collection.item, update]
  split
  · rename_i h
    rw [h]
    exact find?_updateFirst (by simp [hchange]) c.items
  · rename_i h
    refine find?_updateFirst_of_disjoint (fun a ha ↦ ?_) c.items
    simp only [decide_eq_true_eq] at ha
    simp [hchange, ha, Ne.symm h]

end Collection

namespace Contents

variable (c : Contents)

theorem collection_update {id : String} {change : Collection → Collection}
    (hchange : ∀ found, (change found).id = found.id) (other : String) :
    (c.update id change).collection other =
      if other = id then (c.collection other).map change else c.collection other := by
  rw [collection, update]
  split
  · rename_i h
    rw [h]
    exact find?_updateFirst (by simp [hchange]) c.collections
  · rename_i h
    refine find?_updateFirst_of_disjoint (fun a ha ↦ ?_) c.collections
    simp only [decide_eq_true_eq] at ha
    simp [hchange, ha, Ne.symm h]

theorem item_update {id : String} {change : Collection → Collection}
    (hchange : ∀ found, (change found).id = found.id) (other : String) (n : ℕ) :
    (c.update id change).item other n =
      if other = id then (c.collection other).bind fun found ↦ (change found).item n
      else c.item other n := by
  rw [item, collection_update c hchange]
  split
  · rw [Option.bind_map]
    rfl
  · rfl

/-- A new collection is empty. -/
theorem item_push (id label other : String) (n : ℕ) :
    (c.push id label).item other n = c.item other n := by
  rw [item, collection, push, List.find?_append, item, collection]
  cases c.collections.find? fun collection ↦ collection.id = other with
  | some found => rfl
  | none =>
    rw [Option.none_or, List.find?_singleton]
    split
    · exact Collection.item_new _ _ n
    · rfl

theorem item_createCollection (label other : String) (n : ℕ) :
    (c.createCollection label).2.item other n = c.item other n :=
  item_push c _ label other n

theorem item_withPasskeys (other : String) (n : ℕ) :
    c.withPasskeys.item other n = c.item other n := by
  rw [withPasskeys]
  split
  · exact item_push c _ _ other n
  · rfl

theorem item_deleteCollection (id other : String) (n : ℕ) :
    (c.deleteCollection id).item other n = if other = id then none else c.item other n := by
  rw [item, collection, deleteCollection]
  split
  · rename_i h
    have hnone := find?_filter_of_disjoint (p := fun collection : Collection ↦ collection.id ≠ id)
      (q := fun collection ↦ collection.id = other) (by simp [h]) c.collections
    rw [hnone]
    rfl
  · rename_i h
    have hsame := find?_filter_of_imp (p := fun collection : Collection ↦ collection.id ≠ id)
      (q := fun collection ↦ collection.id = other) (fun a ha ↦ by
        simp only [decide_eq_true_eq] at ha ⊢
        rwa [ha]) c.collections
    rw [hsame]
    rfl

theorem item_deleteItem (id other : String) (m n : ℕ) :
    (c.deleteItem id m).item other n =
      if other = id ∧ n = m then none else c.item other n := by
  rw [deleteItem, item_update c (by exact fun _ ↦ rfl), item]
  by_cases h : other = id
  · rw [if_pos h]
    simp only [Collection.item_retain_ne, h, true_and]
    by_cases hn : n = m
    · simp [hn]
    · simp [hn]
  · rw [if_neg h, if_neg (fun hand ↦ h hand.1)]

theorem item_changeItem (id other : String) (m n : ℕ) {change : Item → Item}
    (hchange : ∀ item, (change item).id = item.id) :
    (c.changeItem id m change).item other n =
      if other = id ∧ n = m then (c.item other n).map change else c.item other n := by
  rw [changeItem, item_update c (by exact fun _ ↦ rfl), item]
  by_cases h : other = id
  · rw [if_pos h]
    simp only [Collection.item_update _ m hchange, h, true_and]
    by_cases hn : n = m
    · simp only [hn, if_true, Option.map_bind]
      rfl
    · simp [hn]
  · rw [if_neg h, if_neg (fun hand ↦ h hand.1)]

theorem item_setAlias (name : String) (target : Option String) (other : String) (n : ℕ) :
    (c.setAlias name target).item other n = c.item other n := rfl

/-- The number an item gets does not depend on what is in it. -/
theorem storeItem_number (id : String) (item item' : Item) (replacing : Option ℕ) :
    (c.storeItem id item replacing).1 = (c.storeItem id item' replacing).1 := by
  rw [storeItem, storeItem]
  cases c.collection id with
  | none => rfl
  | some target =>
    dsimp only
    split <;> rfl

/-- **What is found after an item was stored** was there before, or is that item under the number
it got. -/
theorem item_storeItem {id other : String} {item found : Item} {replacing : Option ℕ} {n : ℕ}
    (h : (c.storeItem id item replacing).2.item other n = some found) :
    (∃ old, c.item other n = some old ∧ old.born = found.born) ∨
      (other = id ∧ (c.storeItem id item replacing).1 = some (n, true) ∧
        found.born = item.born) := by
  rw [storeItem] at h ⊢
  cases hcollection : c.collection id with
  | none =>
    rw [hcollection] at h
    exact .inl ⟨found, h, rfl⟩
  | some target =>
    rw [hcollection] at h
    dsimp only at h ⊢
    split at h
    · left
      rename_i existing _
      rw [item_update c (by exact fun _ ↦ rfl)] at h
      split at h
      · rename_i hid
        rw [hid, hcollection, Option.bind_some, Collection.item_update] at h
        · rw [hid, Contents.item, hcollection, Option.bind_some]
          split at h
          · obtain ⟨old, hold, rfl⟩ := Option.map_eq_some_iff.1 h
            exact ⟨old, hold, rfl⟩
          · exact ⟨found, h, rfl⟩
        · exact fun _ ↦ rfl
      · exact ⟨found, h, rfl⟩
    · rw [item_update c (by exact fun _ ↦ rfl)] at h
      split at h
      · rename_i hid
        rw [hid, hcollection, Option.bind_some, Collection.item_add, Option.or_eq_some_iff] at h
        rcases h with h | ⟨-, h⟩
        · left
          rw [hid, Contents.item, hcollection, Option.bind_some]
          exact ⟨found, h, rfl⟩
        · right
          split at h
          · rename_i hn
            refine ⟨hid, ?_, ?_⟩
            · rw [← hn]
              rfl
            · rw [← Option.some_inj.1 h]
          · exact absurd h (by simp)
      · exact .inl ⟨found, h, rfl⟩

end Contents

end Keyring

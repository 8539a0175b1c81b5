import Luft.Lib.BigEndian
import Luft.Lib.SortBy
import Mathlib.Data.List.Lex
import Mathlib.Data.Prod.Lex
import Mathlib.Logic.Relation

/-!
# The one way to write a value

CTAP wants the keys of every map in one order.  `canonical` sorts the maps of a value before a crate writes
it.  The crate is a `Writer`: what the source relies on is that no value is written as nothing, and that the
entries of a map are written one after the other.
-/

set_option autoImplicit false

namespace Passkeys

namespace Ciborium

open SortBy

abbrev Bytes := List UInt8

inductive Value where
  | integer (n : ℤ)
  | bytes (b : Bytes)
  | float (bits : UInt64)
  | text (t : String)
  | bool (b : Bool)
  | null
  | tag (tag : UInt64) (value : Value)
  | array (items : List Value)
  | map (entries : List (Value × Value))

/-- What writes a value. -/
structure Writer where
  into_writer : Value → Bytes
  ne_nil : ∀ v, into_writer v ≠ []
  map : ∀ entries, ∃ head, into_writer (.map entries) =
    head ++ entries.flatMap fun entry ↦ into_writer entry.1 ++ into_writer entry.2

/-- What keys are sorted by: their major type, then their length, then their bytes. -/
def rank (encoded : Bytes) : ℕ ×ₗ ℕ ×ₗ List ℕ :=
  toLex ((encoded.headD 0 >>> 5).toNat, toLex (encoded.length, encoded.map UInt8.toNat))

variable (writer : Writer)

/-- What an entry is sorted by. -/
def keyRank (entry : Value × Value) : ℕ ×ₗ ℕ ×ₗ List ℕ := rank (writer.into_writer entry.1)

mutual

def canonical : Value → Value
  | .map entries => .map (sortBy (keyRank writer) (canonicalEntries entries))
  | .array items => .array (canonicalItems items)
  | v => v

def canonicalItems : List Value → List Value
  | [] => []
  | v :: items => canonical v :: canonicalItems items

def canonicalEntries : List (Value × Value) → List (Value × Value)
  | [] => []
  | (key, v) :: entries => (canonical key, canonical v) :: canonicalEntries entries

end

def encode (v : Value) : Bytes := writer.into_writer (canonical writer v)

/-! ## What is inside a value -/

/-- `u` is reached from a value through arrays and maps. -/
inductive Inside (u : Value) : Value → Prop
  | here : Inside u u
  | item {v : Value} {items : List Value} (hmem : v ∈ items) (h : Inside u v) : Inside u (.array items)
  | key {entry : Value × Value} {entries : List (Value × Value)} (hmem : entry ∈ entries) (h : Inside u entry.1) :
    Inside u (.map entries)
  | value {entry : Value × Value} {entries : List (Value × Value)} (hmem : entry ∈ entries) (h : Inside u entry.2) :
    Inside u (.map entries)

/-- The keys of every map inside are written differently. -/
def NoDuplicates (v : Value) : Prop :=
  ∀ entries, Inside (.map entries) v → (entries.map fun entry ↦ encode writer entry.1).Nodup

/-- The keys of every map inside are in order. -/
def InOrder (v : Value) : Prop := ∀ entries, Inside (.map entries) v →
  entries.Pairwise fun entry entry' ↦ rank (writer.into_writer entry.1) < rank (writer.into_writer entry'.1)

/-- The entries of one map inside are in another order. -/
inductive Swapped : Value → Value → Prop
  | here {entries entries' : List (Value × Value)} (h : entries.Perm entries') : Swapped (.map entries) (.map entries')
  | item {v v' : Value} (before after : List Value) (h : Swapped v v') :
    Swapped (.array (before ++ v :: after)) (.array (before ++ v' :: after))
  | key {key key' : Value} (v : Value) (before after : List (Value × Value)) (h : Swapped key key') :
    Swapped (.map (before ++ (key, v) :: after)) (.map (before ++ (key', v) :: after))
  | value {v v' : Value} (key : Value) (before after : List (Value × Value)) (h : Swapped v v') :
    Swapped (.map (before ++ (key, v) :: after)) (.map (before ++ (key, v') :: after))

variable {writer}

/-- The induction over arrays and maps. -/
@[elab_as_elim]
theorem nested {P : Value → Prop} (array : ∀ items, (∀ v ∈ items, P v) → P (.array items))
    (map : ∀ entries, (∀ entry ∈ entries, P entry.1 ∧ P entry.2) → P (.map entries))
    (other : ∀ v, (∀ items, v ≠ .array items) → (∀ entries, v ≠ .map entries) → P v) (v : Value) : P v := by
  refine @Value.rec P (fun items ↦ ∀ v ∈ items, P v) (fun entries ↦ ∀ entry ∈ entries, P entry.1 ∧ P entry.2)
    (fun entry ↦ P entry.1 ∧ P entry.2) ?_ ?_ ?_ ?_ ?_ ?_ ?_ array map ?_ ?_ ?_ ?_ ?_ v
  case refine_8 => exact fun _ h ↦ absurd h List.not_mem_nil
  case refine_9 => exact fun v items hv hitems ↦ List.forall_mem_cons.2 ⟨hv, hitems⟩
  case refine_10 => exact fun _ h ↦ absurd h List.not_mem_nil
  case refine_11 => exact fun entry entries hentry hentries ↦ List.forall_mem_cons.2 ⟨hentry, hentries⟩
  case refine_12 => exact fun key v hkey hv ↦ ⟨hkey, hv⟩
  all_goals
    intros
    exact other _ (fun _ h ↦ by cases h) (fun _ h ↦ by cases h)

/-! ## The canonical value -/

/-- Both sides of an entry. -/
def canonicalEntry (writer : Writer) (entry : Value × Value) : Value × Value :=
  (canonical writer entry.1, canonical writer entry.2)

@[simp] theorem canonical_array (items : List Value) :
    canonical writer (.array items) = .array (items.map (canonical writer)) := by
  have hitems : ∀ items, canonicalItems writer items = items.map (canonical writer) := fun items ↦ by
    induction items with
    | nil => rfl
    | cons v items ih => rw [canonicalItems, ih, List.map_cons]
  rw [canonical, hitems]

@[simp] theorem canonical_map (entries : List (Value × Value)) :
    canonical writer (.map entries) = .map (sortBy (keyRank writer) (entries.map (canonicalEntry writer))) := by
  have hentries : ∀ entries, canonicalEntries writer entries = entries.map (canonicalEntry writer) := fun entries ↦ by
    induction entries with
    | nil => rfl
    | cons entry entries ih => rw [canonicalEntries, ih, List.map_cons, canonicalEntry]
  rw [canonical, hentries]

theorem canonical_other {v : Value} (harray : ∀ items, v ≠ .array items) (hmap : ∀ entries, v ≠ .map entries) :
    canonical writer v = v := by
  rw [canonical]
  · exact fun entries h ↦ hmap entries h
  · exact fun items h ↦ harray items h

theorem canonical_canonical (v : Value) : canonical writer (canonical writer v) = canonical writer v := by
  induction v using nested with
  | array items ih =>
    rw [canonical_array, canonical_array, List.map_map]
    exact congrArg _ (List.map_congr_left ih)
  | map entries ih =>
    have hfixed : ∀ entry ∈ sortBy (keyRank writer) (entries.map (canonicalEntry writer)),
        canonicalEntry writer entry = entry := by
      intro entry hentry
      obtain ⟨source, hsource, rfl⟩ := List.mem_map.1 ((sortBy_perm _ _).mem_iff.1 hentry)
      exact Prod.ext (ih source hsource).1 (ih source hsource).2
    rw [canonical_map, canonical_map, List.map_congr_left hfixed, List.map_id', sortBy_idempotent]
  | other v harray hmap => rw [canonical_other harray hmap, canonical_other harray hmap]

theorem rank_injective : Function.Injective rank := fun a b h ↦ by
  have hbytes : a.map UInt8.toNat = b.map UInt8.toNat := congrArg (fun r ↦ (ofLex (ofLex r).2).2) h
  exact List.map_injective_iff.2 (fun _ _ ↦ UInt8.toNat_inj.1) hbytes

theorem NoDuplicates.keys {v : Value} (h : NoDuplicates writer v) {entries : List (Value × Value)}
    (hinside : Inside (.map entries) v) : ((entries.map (canonicalEntry writer)).map (keyRank writer)).Nodup := by
  have hmap : (entries.map (canonicalEntry writer)).map (keyRank writer) =
      (entries.map fun entry ↦ encode writer entry.1).map rank := by
    rw [List.map_map, List.map_map]
    rfl
  rw [hmap]
  exact (h entries hinside).map rank_injective

/-- A map inside the canonical value comes from a map inside the value. -/
theorem inside_canonical {v : Value} {entries : List (Value × Value)} (h : Inside (.map entries) (canonical writer v)) :
    ∃ source, Inside (.map source) v ∧ entries = sortBy (keyRank writer) (source.map (canonicalEntry writer)) := by
  induction v using nested with
  | array items ih =>
    rw [canonical_array] at h
    cases h with
    | item hmem h =>
      obtain ⟨v, hv, rfl⟩ := List.mem_map.1 hmem
      obtain ⟨source, hsource, heq⟩ := ih v hv h
      exact ⟨source, .item hv hsource, heq⟩
  | map own ih =>
    rw [canonical_map] at h
    cases h with
    | here => exact ⟨own, .here, rfl⟩
    | key hmem h =>
      obtain ⟨entry, hentry, rfl⟩ := List.mem_map.1 ((sortBy_perm _ _).mem_iff.1 hmem)
      obtain ⟨source, hsource, heq⟩ := (ih entry hentry).1 h
      exact ⟨source, .key hentry hsource, heq⟩
    | value hmem h =>
      obtain ⟨entry, hentry, rfl⟩ := List.mem_map.1 ((sortBy_perm _ _).mem_iff.1 hmem)
      obtain ⟨source, hsource, heq⟩ := (ih entry hentry).2 h
      exact ⟨source, .value hentry hsource, heq⟩
  | other v harray hmap =>
    rw [canonical_other harray hmap] at h
    cases h with
    | here => exact absurd rfl (hmap entries)
    | item => exact absurd rfl (harray _)
    | key => exact absurd rfl (hmap _)
    | value => exact absurd rfl (hmap _)

theorem inOrder_canonical {v : Value} (h : NoDuplicates writer v) : InOrder writer (canonical writer v) := by
  intro entries hinside
  obtain ⟨source, hsource, rfl⟩ := inside_canonical hinside
  exact sortBy_strict (h.keys hsource)

/-- One map in another order makes no difference. -/
theorem Swapped.canonical_eq {v w : Value} (h : Swapped v w) (hv : NoDuplicates writer v) :
    canonical writer v = canonical writer w := by
  induction h with
  | here h =>
    rw [canonical_map, canonical_map, sortBy_eq_of_perm (hv.keys .here) (h.map _)]
  | item before after h ih =>
    have heq := ih fun entries hinside ↦ hv entries (.item (List.mem_append_right _ List.mem_cons_self) hinside)
    simp only [canonical_array, List.map_append, List.map_cons, heq]
  | key v before after h ih =>
    have heq := ih fun entries hinside ↦ hv entries (.key (List.mem_append_right _ List.mem_cons_self) hinside)
    simp only [canonical_map, List.map_append, List.map_cons, canonicalEntry, heq]
  | value key before after h ih =>
    have heq := ih fun entries hinside ↦ hv entries (.value (List.mem_append_right _ List.mem_cons_self) hinside)
    simp only [canonical_map, List.map_append, List.map_cons, canonicalEntry, heq]

theorem Inside.canonical {u v : Value} (h : Inside u v) : Inside (canonical writer u) (canonical writer v) := by
  induction h with
  | here => exact .here
  | item hmem h ih =>
    rw [canonical_array]
    exact .item (List.mem_map_of_mem hmem) ih
  | key hmem h ih =>
    rw [canonical_map]
    exact .key ((sortBy_perm _ _).mem_iff.2 (List.mem_map_of_mem hmem)) ih
  | value hmem h ih =>
    rw [canonical_map]
    exact .value ((sortBy_perm _ _).mem_iff.2 (List.mem_map_of_mem hmem)) ih

/-- Whether there are duplicates is told by the canonical value. -/
theorem NoDuplicates.of_canonical_eq {v w : Value} (hv : NoDuplicates writer v)
    (h : Ciborium.canonical writer v = Ciborium.canonical writer w) : NoDuplicates writer w := by
  intro entries hinside
  have hsorted : Inside (Ciborium.canonical writer (.map entries)) (Ciborium.canonical writer w) := hinside.canonical
  rw [canonical_map, ← h] at hsorted
  obtain ⟨source, hsource, heq⟩ := inside_canonical hsorted
  have hsource' := sortBy_perm (keyRank writer) (source.map (canonicalEntry writer))
  rw [← heq] at hsource'
  have hperm := (sortBy_perm (keyRank writer) (entries.map (canonicalEntry writer))).symm.trans hsource'
  have hkeys := (hperm.map (keyRank writer)).nodup_iff.2 (hv.keys hsource)
  rw [List.map_map] at hkeys
  exact .of_map rank ((List.map_map ..).symm ▸ hkeys)

/-- Any number of maps in other orders. -/
theorem canonical_eq_of_swapped {v w : Value} (h : Relation.ReflTransGen Swapped v w) (hv : NoDuplicates writer v) :
    canonical writer w = canonical writer v := by
  induction h with
  | refl => rfl
  | tail _ hstep ih => exact (hstep.canonical_eq (hv.of_canonical_eq ih.symm)).symm.trans ih

/-- The major type of a value and a number. -/
def initial (major n : ℕ) : Bytes :=
  if n < 24 then [UInt8.ofNat (major * 32 + n)]
  else if n < 256 then UInt8.ofNat (major * 32 + 24) :: BigEndian.be 1 n
  else if n < 65536 then UInt8.ofNat (major * 32 + 25) :: BigEndian.be 2 n
  else if n < 4294967296 then UInt8.ofNat (major * 32 + 26) :: BigEndian.be 4 n
  else UInt8.ofNat (major * 32 + 27) :: BigEndian.be 8 n

mutual

def written : Value → Bytes
  | .integer n => if 0 ≤ n then initial 0 n.toNat else initial 1 (-1 - n).toNat
  | .bytes b => initial 2 b.length ++ b
  | .float bits => 0xfb :: BigEndian.be 8 bits.toNat
  | .text t =>
    let bytes := t.toList.flatMap String.utf8EncodeChar
    initial 3 bytes.length ++ bytes
  | .bool b => if b then [0xf5] else [0xf4]
  | .null => [0xf6]
  | .tag tag v => initial 6 tag.toNat ++ written v
  | .array items => initial 4 items.length ++ writtenItems items
  | .map entries => initial 5 entries.length ++ writtenEntries entries

def writtenItems : List Value → Bytes
  | [] => []
  | v :: items => written v ++ writtenItems items

def writtenEntries : List (Value × Value) → Bytes
  | [] => []
  | (key, v) :: entries => written key ++ written v ++ writtenEntries entries

end

theorem initial_ne_nil (major n : ℕ) : initial major n ≠ [] := by
  rw [initial]
  split_ifs <;> exact List.cons_ne_nil _ _

/-- Every number in as few bytes as it fits in, except that floating point numbers are written in full. -/
def plain : Writer where
  into_writer := written
  ne_nil v := by
    cases v with
    | integer n =>
      rw [written]
      split <;> exact initial_ne_nil _ _
    | float => exact List.cons_ne_nil _ _
    | bool b => cases b <;> exact List.cons_ne_nil _ _
    | null => exact List.cons_ne_nil _ _
    | _ => exact List.append_ne_nil_of_left_ne_nil (initial_ne_nil _ _) _
  map entries := by
    have hentries : ∀ entries, writtenEntries entries = entries.flatMap fun entry ↦ written entry.1 ++ written entry.2 :=
      fun entries ↦ by
        induction entries with
        | nil => rfl
        | cons entry entries ih => rw [writtenEntries, ih, List.flatMap_cons]
    exact ⟨initial 5 entries.length, by rw [written, hentries]⟩

/-- A text and a number as keys. -/
def mixed : List (Value × Value) := [(.text "b", .null), (.integer 1000, .null)]

theorem noDuplicates_mixed : NoDuplicates plain (.map mixed) := by
  intro entries h
  cases h with
  | here => decide +kernel
  | key hmem h =>
    simp only [mixed, List.mem_cons, List.not_mem_nil, or_false] at hmem
    rcases hmem with rfl | rfl <;> cases h
  | value hmem h =>
    simp only [mixed, List.mem_cons, List.not_mem_nil, or_false] at hmem
    rcases hmem with rfl | rfl <;> cases h

end Ciborium

end Passkeys

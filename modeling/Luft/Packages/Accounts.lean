import Luft.Lib.Text
import Luft.Packages.Repositories
import Mathlib.Data.List.Nodup

/-!
# Accounts that packages make

The build root starts out with the computer's accounts (`Database.new`).  Those that earlier packages
made are renamed there, so that the packages make them again while their numbers stay taken.  `added`
takes what the packages made: a name that the computer has gets the number that it has there, and
`moved` says from which number in the build root to which on the computer.  Files are moved with it in
one pass (`reown`).

`added_spec` needs two things.  On the computer no number belongs to two names; and what the packages
added got numbers that are free (`Added`).  Then numbers stay unique, and no number that is moved to
is moved from: the one is taken on the computer, the other was free there.
-/

set_option autoImplicit false

namespace Packages

/-! ## Entries -/

def HELD : Str := "luft-held-".toList

/-- A `u32` in digits, with or without a plus sign. -/
def u32 (text : Str) : Option UInt32 :=
  let digits := if text.head? = some '+' then text.tail else text
  if digits ≠ [] ∧ digits.all Char.isDigit then
    let value := Nat.ofDigitChars 10 digits 0
    if value < 4294967296 then some (.ofNat value) else none
  else none

def decimal (id : UInt32) : Str := Nat.toDigits 10 id.toNat

/-- A line of `/etc/passwd` or `/etc/group`. -/
structure Entry where
  fields : List Str
  four : 4 ≤ fields.length
  numbered : (fields[2]?.bind u32).isSome
deriving DecidableEq

theorem u32_decimal (id : UInt32) : u32 (decimal id) = some id := by
  have hdigit : ∀ c ∈ Nat.toDigits 10 id.toNat, c.isDigit = true :=
    fun c hc ↦ Nat.isDigit_of_mem_toDigits (by decide) (by decide) hc
  have hhead : (Nat.toDigits 10 id.toNat).head? ≠ some '+' := by
    intro h
    exact absurd (hdigit '+' (List.mem_of_mem_head? h)) (by decide)
  rw [u32, decimal]
  simp only [if_neg hhead]
  rw [if_pos ⟨Nat.toDigits_ne_nil, List.all_eq_true.2 hdigit⟩, Nat.ofDigitChars_ten_toDigits,
    if_pos id.toNat_lt, UInt32.ofNat_toNat]

namespace Entry

def parse (line : Str) : Option Entry :=
  let fields := line.splitOn ':'
  if h : 4 ≤ fields.length ∧ (fields[2]?.bind u32).isSome then some ⟨fields, h.1, h.2⟩ else none

def name (entry : Entry) : Str := (entry.fields[0]?).getD []

def id (entry : Entry) : UInt32 := (entry.fields[2]?.bind u32).getD 0

/-- The entry with another name. -/
def named (entry : Entry) (name : Str) : Entry where
  fields := entry.fields.set 0 name
  four := by rw [List.length_set]; exact entry.four
  numbered := by rw [List.getElem?_set_ne (by decide)]; exact entry.numbered

theorem getElem?_set_id (entry : Entry) (id : UInt32) :
    (entry.fields.set 2 (decimal id))[2]? = some (decimal id) :=
  List.getElem?_set_self (Nat.lt_of_lt_of_le (by decide) entry.four)

/-- The entry with another number. -/
def withId (entry : Entry) (id : UInt32) : Entry where
  fields := entry.fields.set 2 (decimal id)
  four := by rw [List.length_set]; exact entry.four
  numbered := by rw [getElem?_set_id, Option.bind_some, u32_decimal]; rfl

@[simp] theorem named_name (entry : Entry) (name : Str) : (entry.named name).name = name := by
  rw [Entry.name, named, List.getElem?_set_self (Nat.lt_of_lt_of_le (by decide) entry.four)]
  rfl

@[simp] theorem named_id (entry : Entry) (name : Str) : (entry.named name).id = entry.id := by
  rw [Entry.id, named, List.getElem?_set_ne (by decide), Entry.id]

@[simp] theorem withId_name (entry : Entry) (id : UInt32) : (entry.withId id).name = entry.name := by
  rw [Entry.name, withId, List.getElem?_set_ne (by decide), Entry.name]

@[simp] theorem withId_id (entry : Entry) (id : UInt32) : (entry.withId id).id = id := by
  rw [Entry.id, withId, getElem?_set_id, Option.bind_some, u32_decimal]
  rfl

end Entry

def read (text : Str) : List Entry := (Text.lines text).filterMap Entry.parse

def id_of (entries : List Entry) (name : Str) : Option UInt32 :=
  (entries.find? fun entry ↦ entry.name = name).map Entry.id

/-! ## The two databases -/

/-- One of `/etc/passwd` and `/etc/group`, on the computer and as the build root gets it. -/
structure Database where
  computer : List Entry
  seeded : List Entry
deriving DecidableEq

namespace Database

/-- An account that is held keeps its number under another name. -/
def hold (made : List Str) (entry : Entry) : Entry :=
  if made.contains entry.name then entry.named (HELD ++ decimal entry.id) else entry

def new (computer : List Entry) (made : List Str) : Database where
  computer := computer
  seeded := computer.map (hold made)

variable (db : Database)

/-- Whether the packages made an entry. -/
def isAdded (entry : Entry) : Bool :=
  !HELD.isPrefixOf entry.name && (id_of db.seeded entry.name).isNone

/-- Where the number of an entry moves. -/
def move (entry : Entry) : Option (UInt32 × UInt32) :=
  match id_of db.computer entry.name with
  | some id => if id ≠ entry.id then some (entry.id, id) else none
  | none => none

/-- An entry with the number that it has on the computer. -/
def settled (entry : Entry) : Entry :=
  match db.move entry with
  | some (_, id) => entry.withId id
  | none => entry

/-- What the packages added, and how numbers in the build root move to get there, the last one
inserted first. -/
def added (after : List Entry) : List Entry × List (UInt32 × UInt32) :=
  let kept := after.filter db.isAdded
  (kept.map db.settled, (kept.filterMap db.move).reverse)

end Database

/-- The owner that a file of the build gets. -/
def reown (moved : List (UInt32 × UInt32)) (id : UInt32) : UInt32 := (moved.lookup id).getD id

/-! ## What the packages added -/

/-- On a computer no number belongs to two names. -/
def Distinct (computer : List Entry) : Prop :=
  ∀ a ∈ computer, ∀ b ∈ computer, a.id = b.id → a.name = b.name

namespace Database

/-- What the packages added has names and numbers of its own, and the numbers are free on the
computer. -/
structure Added (db : Database) (after : List Entry) : Prop where
  names : ((after.filter db.isAdded).map Entry.name).Nodup
  ids : ((after.filter db.isAdded).map Entry.id).Nodup
  free : ∀ e ∈ after, db.isAdded e → ∀ c ∈ db.computer, e.id ≠ c.id

variable {db : Database} {after : List Entry} {e : Entry}

theorem exists_of_id_of {entries : List Entry} {name : Str} {id : UInt32}
    (h : id_of entries name = some id) : ∃ c ∈ entries, c.name = name ∧ c.id = id := by
  obtain ⟨c, hc, hid⟩ := Option.map_eq_some_iff.1 h
  have hname := List.find?_some hc
  rw [decide_eq_true_eq] at hname
  exact ⟨c, List.mem_of_find?_eq_some hc, hname, hid⟩

theorem id_of_eq_none {entries : List Entry} {name : Str}
    (h : ∀ c ∈ entries, c.name ≠ name) : id_of entries name = none := by
  rw [id_of, Option.map_eq_none_iff, List.find?_eq_none]
  exact fun c hc ↦ by rw [decide_eq_true_eq]; exact h c hc

@[simp] theorem settled_name (db : Database) (e : Entry) : (db.settled e).name = e.name := by
  rw [settled]
  split
  · exact e.withId_name _
  · rfl

theorem settled_id_of_some {id : UInt32} (h : id_of db.computer e.name = some id) :
    (db.settled e).id = id := by
  rw [settled, move, h]
  dsimp only
  by_cases hid : id = e.id
  · rw [if_neg (not_not.2 hid), hid]
  · rw [if_pos hid]
    exact e.withId_id id

theorem settled_id_of_none (h : id_of db.computer e.name = none) : (db.settled e).id = e.id := by
  rw [settled, move, h]

/-- A number moves from what was added to what the computer has. -/
theorem move_eq_some {p : UInt32 × UInt32} (h : db.move e = some p) :
    p.1 = e.id ∧ (db.settled e).id = p.2 ∧ ∃ c ∈ db.computer, c.id = p.2 := by
  cases hid : id_of db.computer e.name with
  | none =>
    rw [move, hid] at h
    cases h
  | some id =>
    have hsettled := settled_id_of_some hid
    rw [move, hid] at h
    dsimp only at h
    split at h
    · cases h
      obtain ⟨c, hc, -, hcid⟩ := exists_of_id_of hid
      exact ⟨rfl, hsettled, c, hc, hcid⟩
    · cases h

theorem move_eq_none (h : db.move e = none) : (db.settled e).id = e.id := by
  rw [settled, h]

section

variable (hcomputer : Distinct db.computer) (hafter : db.Added after)

include hcomputer hafter in
/-- **The added numbers stay unique**, also next to the computer's. -/
theorem settled_id_ne {a b : Entry} (ha : a ∈ after.filter db.isAdded)
    (hb : b ∈ after.filter db.isAdded) (hname : a.name ≠ b.name) (hid : a.id ≠ b.id) :
    (db.settled a).id ≠ (db.settled b).id := by
  have hfree {e : Entry} (he : e ∈ after.filter db.isAdded) (c : Entry) (hc : c ∈ db.computer) :
      e.id ≠ c.id :=
    hafter.free e (List.mem_filter.1 he).1 (List.mem_filter.1 he).2 c hc
  cases hida : id_of db.computer a.name with
  | none =>
    rw [settled_id_of_none hida]
    cases hidb : id_of db.computer b.name with
    | none => rwa [settled_id_of_none hidb]
    | some idb =>
      obtain ⟨c, hc, -, hcid⟩ := exists_of_id_of hidb
      rw [settled_id_of_some hidb, ← hcid]
      exact hfree ha c hc
  | some ida =>
    obtain ⟨c, hc, hcname, hcid⟩ := exists_of_id_of hida
    rw [settled_id_of_some hida, ← hcid]
    cases hidb : id_of db.computer b.name with
    | none =>
      rw [settled_id_of_none hidb]
      exact (hfree hb c hc).symm
    | some idb =>
      obtain ⟨d, hd, hdname, hdid⟩ := exists_of_id_of hidb
      rw [settled_id_of_some hidb, ← hdid]
      rintro heq
      refine hname ?_
      rw [← hcname, ← hdname]
      exact hcomputer c hc d hd heq

include hcomputer hafter in
theorem nodup_settled : ((db.added after).1.map Entry.id).Nodup := by
  have hnames := List.pairwise_map.1 hafter.names
  have hids := List.pairwise_map.1 hafter.ids
  rw [added, List.map_map, List.Nodup, List.pairwise_map]
  refine (hnames.and hids).imp_of_mem fun {a b} ha hb hab ↦ ?_
  exact settled_id_ne hcomputer hafter ha hb hab.1 hab.2

include hcomputer hafter in
/-- An added entry has the number of an account on the computer only where it is that account. -/
theorem settled_name_eq {a c : Entry} (ha : a ∈ after.filter db.isAdded) (hc : c ∈ db.computer)
    (h : (db.settled a).id = c.id) : a.name = c.name := by
  cases hid : id_of db.computer a.name with
  | none =>
    rw [settled_id_of_none hid] at h
    exact absurd h (hafter.free a (List.mem_filter.1 ha).1 (List.mem_filter.1 ha).2 c hc)
  | some id =>
    obtain ⟨d, hd, hdname, hdid⟩ := exists_of_id_of hid
    rw [settled_id_of_some hid, ← hdid] at h
    rw [← hdname]
    exact hcomputer d hd c hc h

include hafter in
/-- **What is moved from was free on the computer, what is moved to is taken there.** -/
theorem moved_ne {p q : UInt32 × UInt32} (hp : p ∈ (db.added after).2)
    (hq : q ∈ (db.added after).2) : p.1 ≠ q.2 := by
  rw [added, List.mem_reverse, List.mem_filterMap] at hp hq
  obtain ⟨a, ha, hap⟩ := hp
  obtain ⟨b, -, hbq⟩ := hq
  obtain ⟨c, hc, hcq⟩ := (move_eq_some hbq).2.2
  rw [(move_eq_some hap).1, ← hcq]
  exact hafter.free a (List.mem_filter.1 ha).1 (List.mem_filter.1 ha).2 c hc

/-- Where every move from a number leads to the same one, a file goes there. -/
theorem reown_eq {moved : List (UInt32 × UInt32)} {id id' : UInt32}
    (hsome : ∀ p ∈ moved, p.1 = id → p.2 = id') (hnone : (∀ p ∈ moved, p.1 ≠ id) → id = id') :
    reown moved id = id' := by
  rw [reown]
  cases hlookup : moved.lookup id with
  | none =>
    refine hnone fun p hp heq ↦ ?_
    have hne := List.lookup_eq_none_iff.1 hlookup p hp
    rw [heq, bne_self_eq_false] at hne
    cases hne
  | some v =>
    obtain ⟨before, rest, rfl, -⟩ := List.lookup_eq_some_iff.1 hlookup
    exact hsome (id, v) (List.mem_append_right _ List.mem_cons_self) rfl

include hafter in
/-- **A file of what was added** goes with it. -/
theorem reown_added (he : e ∈ after.filter db.isAdded) :
    reown (db.added after).2 e.id = (db.settled e).id := by
  have hsame {a : Entry} (ha : a ∈ after.filter db.isAdded) (hid : a.id = e.id) : a = e :=
    List.inj_on_of_nodup_map hafter.ids ha he hid
  refine reown_eq ?_ ?_
  · rintro p hp hpe
    rw [added, List.mem_reverse, List.mem_filterMap] at hp
    obtain ⟨a, ha, hap⟩ := hp
    obtain ⟨hfrom, hto, -⟩ := move_eq_some hap
    rw [← hto, hsame ha (hfrom.symm.trans hpe)]
  · intro hnone
    cases hmove : db.move e with
    | none => exact (move_eq_none hmove).symm
    | some p =>
      refine absurd (move_eq_some hmove).1 (hnone p ?_)
      rw [added, List.mem_reverse, List.mem_filterMap]
      exact ⟨e, he, hmove⟩

include hafter in
/-- **A file of an account that the computer has** stays. -/
theorem reown_computer {c : Entry} (hc : c ∈ db.computer) :
    reown (db.added after).2 c.id = c.id := by
  refine reown_eq ?_ fun _ ↦ rfl
  rintro p hp hpc
  rw [added, List.mem_reverse, List.mem_filterMap] at hp
  obtain ⟨a, ha, hap⟩ := hp
  rw [(move_eq_some hap).1] at hpc
  exact absurd hpc (hafter.free a (List.mem_filter.1 ha).1 (List.mem_filter.1 ha).2 c hc)

end

/-- A name that an earlier build made is added again when the packages make it. -/
theorem isAdded_of_made {computer : List Entry} {made : List Str} (hmade : e.name ∈ made)
    (hheld : ¬ HELD.isPrefixOf e.name) : (new computer made).isAdded e := by
  rw [Bool.not_eq_true] at hheld
  rw [isAdded, Bool.and_eq_true, Bool.not_eq_true', Option.isNone_iff_eq_none]
  refine ⟨hheld, id_of_eq_none fun c hc ↦ ?_⟩
  obtain ⟨d, -, rfl⟩ := List.mem_map.1 hc
  rw [hold]
  split
  · rw [Entry.named_name]
    rintro heq
    rw [← heq, List.isPrefixOf_iff_prefix.2 (List.prefix_append _ _)] at hheld
    cases hheld
  · rename_i hnot
    rintro heq
    rw [heq] at hnot
    exact hnot (List.contains_iff_mem.2 hmade)

/-- **Account numbers stay unique.**  A re-made name is added with the number that the computer has for
it, and every added name that the computer has gets its number there; added numbers are unique and
none is another account's; what is moved to is not moved from; and moving files in one pass gives
those of an added account its new number and leaves the computer's alone. -/
theorem added_spec (computer : List Entry) (made : List Str) (after : List Entry)
    (hcomputer : Distinct computer) (hafter : (new computer made).Added after) :
    let db := new computer made
    let added := (db.added after).1
    let moved := (db.added after).2
    (∀ e ∈ after, e.name ∈ made → ¬ HELD.isPrefixOf e.name →
      ∀ id, id_of computer e.name = some id → ∃ a ∈ added, a.name = e.name ∧ a.id = id) ∧
    (∀ a ∈ added, ∀ id, id_of computer a.name = some id → a.id = id) ∧
    (added.map Entry.id).Nodup ∧
    (∀ a ∈ added, ∀ c ∈ computer, a.id = c.id → a.name = c.name) ∧
    (∀ p ∈ moved, ∀ q ∈ moved, p.1 ≠ q.2) ∧
    (∀ e ∈ after, db.isAdded e → ∃ a ∈ added, a.name = e.name ∧ reown moved e.id = a.id) ∧
    ∀ c ∈ computer, reown moved c.id = c.id := by
  refine ⟨?_, ?_, nodup_settled hcomputer hafter, ?_, ?_, ?_, ?_⟩
  · rintro e he hmade hheld id hid
    refine ⟨(new computer made).settled e, List.mem_map_of_mem (List.mem_filter.2 ⟨he, ?_⟩),
      settled_name _ e, settled_id_of_some hid⟩
    exact isAdded_of_made hmade hheld
  · rintro a ha id hid
    obtain ⟨e, -, rfl⟩ := List.mem_map.1 ha
    rw [settled_name] at hid
    exact settled_id_of_some hid
  · rintro a ha c hc heq
    obtain ⟨e, he, rfl⟩ := List.mem_map.1 ha
    rw [settled_name]
    exact settled_name_eq hcomputer hafter he hc heq
  · exact fun p hp q hq ↦ moved_ne hafter hp hq
  · rintro e he hadded
    have hkept := List.mem_filter.2 ⟨he, hadded⟩
    exact ⟨_, List.mem_map_of_mem hkept, settled_name _ e, reown_added hafter hkept⟩
  · exact fun c hc ↦ reown_computer hafter hc

/-- The groups of a computer where a package once made `docker`. -/
def groups : List Entry := read "wheel:x:10:luft\ndocker:x:975:luft\n".toList

theorem added_spec_docker :
    reown ((new groups ["docker".toList]).added (read
      "wheel:x:10:luft\nluft-held-975:x:975:\ndocker:x:974:\nother:x:973:\n".toList)).2 974 = 975 := by
  have hspec := added_spec groups ["docker".toList]
    (read "wheel:x:10:luft\nluft-held-975:x:975:\ndocker:x:974:\nother:x:973:\n".toList)
    (by unfold Distinct; decide +kernel)
    ⟨by decide +kernel, by decide +kernel, by decide +kernel⟩
  obtain ⟨a, ha, hname, hid⟩ := hspec.2.2.2.2.2.1
    ⟨["docker".toList, ['x'], "974".toList, []], by decide, by decide⟩ (by decide +kernel)
    (by decide +kernel)
  have ha975 := hspec.2.1 a ha 975 (by rw [hname]; decide +kernel)
  rw [ha975] at hid
  exact hid

/-- Two names with one number on the computer have it again when they are made again; and so has
a name that the packages made with a number that was held. -/
theorem added_shared :
    (((new (read "a:x:5:\nb:x:5:\n".toList) [['a'], ['b']]).added (read "a:x:7:\nb:x:8:\n".toList)).1.map
      Entry.id = [5, 5]) ∧
    (((new groups ["docker".toList]).added (read "docker:x:974:\nother:x:975:\n".toList)).1.map
      Entry.id = [975, 975]) := by
  decide +kernel

end Database

end Packages

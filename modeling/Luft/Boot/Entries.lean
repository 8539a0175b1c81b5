import Luft.Boot.Options

/-!
# When Meet and Luft read the same

`Entry` is a boot entry as the firmware has it: any nodes in any order, then the end of the path, further paths and
optional data.  Meet's `decode` takes the last partition and the last file of all nodes (`decode_write`), Luft the last
partition of the first instance and all of its files together (`parse_write`).
-/

set_option autoImplicit false

namespace Boot

open LittleEndian Slices

/-- How a disk is partitioned, and what the signature of its node is. -/
inductive Style
  | gpt
  | mbr
  | unsigned
deriving DecidableEq

/-- The last two bytes of a partition's node. -/
def Style.write : Style → Bytes
  | .gpt => [GPT, GUID_SIGNATURE]
  | .mbr => [1, 1]
  | .unsigned => [1, 0]

/-- A node that is neither a partition nor a file, nor an end. -/
structure Other where
  kind : UInt8
  subtype : UInt8
  data : Bytes
  not_end : kind ≠ 0x7f
  not_media : ¬(kind = MEDIA ∧ (subtype = HARD_DRIVE ∨ subtype = FILE_PATH))

inductive Node
  | drive (partition : Partition) (style : Style)
  | file (path : Text)
  /-- The end of an instance of the path, with another behind it. -/
  | boundary
  | other (other : Other)

namespace Node

def kind : Node → UInt8
  | drive _ _ => MEDIA
  | file _ => MEDIA
  | boundary => 0x7f
  | other o => o.kind

def subtype : Node → UInt8
  | drive _ _ => HARD_DRIVE
  | file _ => FILE_PATH
  | boundary => 0x01
  | other o => o.subtype

def data : Node → Bytes
  | drive partition style =>
    le 4 partition.number.toNat ++ le 8 partition.first_lba.toNat ++ le 8 partition.sectors.toNat ++ partition.guid ++
      style.write
  | file path => utf16_with_nul path.chars
  | boundary => []
  | other o => o.data

def write (node : Node) : Bytes := [node.kind, node.subtype] ++ le 2 (4 + node.data.length) ++ node.data

def guid? : Node → Option Bytes
  | drive partition .gpt => some partition.guid
  | _ => none

def path? : Node → Option (List Char)
  | file path => some path.chars
  | _ => none

def isBoundary : Node → Bool
  | boundary => true
  | _ => false

end Node

/-- The bytes of a series of nodes. -/
def writeAll (nodes : List Node) : Bytes := nodes.flatMap Node.write

structure Entry where
  attributes : UInt32
  description : Text
  nodes : List Node
  more : Bytes
  optional : Bytes
  fits : (writeAll nodes ++ (END ++ more)).length < 65536

namespace Entry

variable (entry : Entry)

def path : Bytes := writeAll entry.nodes ++ (END ++ entry.more)

def write : Bytes :=
  le 4 entry.attributes.toNat ++
    (le 2 entry.path.length ++ (utf16_with_nul entry.description.chars ++ (entry.path ++ entry.optional)))

end Entry

/-- The partition of the last GPT node. -/
def partitionOf (nodes : List Node) : Option Bytes := (nodes.filterMap Node.guid?).getLast?

def filesOf (nodes : List Node) : List (List Char) := nodes.filterMap Node.path?

/-- The nodes in front of the first end of an instance. -/
def firstInstance (nodes : List Node) : List Node := nodes.takeWhile fun node ↦ !node.isBoundary

/-! ## One node -/

namespace Node

/-- What a node says is put over what was known. -/
def onto (node : Node) (decoded : Decoded) : Decoded :=
  { decoded with partition := node.guid?.or decoded.partition, file := node.path?.or decoded.file }

def added (node : Node) (option : Options.LoadOption) : Options.LoadOption :=
  { option with
    partition := (node.guid?.map Options.guid_text).or option.partition
    path := option.path ++ node.path?.getD [] }

theorem write_eq (node : Node) : ∃ low high, le 2 (4 + node.data.length) = [low, high] ∧
    node.write = node.kind :: node.subtype :: low :: high :: node.data := by
  obtain ⟨low, high, hle⟩ := Utf16.le_two (4 + node.data.length)
  exact ⟨low, high, hle, by rw [write, hle]; rfl⟩

theorem length_write (node : Node) : node.write.length = 4 + node.data.length := by
  obtain ⟨low, high, -, hwrite⟩ := node.write_eq
  rw [hwrite, List.length_cons, List.length_cons, List.length_cons, List.length_cons]
  omega

theorem length_drive (partition : Partition) (style : Style) : (drive partition style).data.length = 38 := by
  have hstyle : style.write.length = 2 := by cases style <;> rfl
  simp only [data, List.length_append, length_le, partition.length_guid, hstyle]

/-- The signature of a partition's node stands in its middle. -/
theorem drive_data (partition : Partition) (style : Style) : ∃ front : Bytes, front.length = 20 ∧
    (drive partition style).data = front ++ (partition.guid ++ style.write) :=
  ⟨le 4 partition.number.toNat ++ le 8 partition.first_lba.toNat ++ le 8 partition.sectors.toNat, by simp,
    by simp [data]⟩

theorem drive_ne_file : HARD_DRIVE ≠ FILE_PATH := by decide

theorem media_ne_end : MEDIA ≠ 0x7f := by decide

theorem taken (node : Node) (decoded : Decoded) :
    takeNode node.kind node.subtype node.write decoded = some (node.onto decoded) := by
  obtain ⟨low, high, -, hwrite⟩ := node.write_eq
  cases node with
  | file path =>
    have hname : sliceFrom (file path).write 4 = some (utf16_with_nul path.chars) := by
      rw [hwrite]
      exact sliceFrom_append [_, _, low, high] _ rfl
    have hread : utf16 (utf16_with_nul path.chars) = path.chars := by
      have h := Utf16.read_withNul path.no_nul []
      rwa [List.append_nil] at h
    rw [takeNode, if_pos ⟨rfl, rfl⟩, hname]
    change some _ = _
    rw [hread]
    rfl
  | drive partition style =>
    have hlength : (drive partition style).write.length = 42 := by rw [length_write, length_drive]
    obtain ⟨front, hfront, hdata⟩ := drive_data partition style
    have hbytes : (drive partition style).write =
        ([MEDIA, HARD_DRIVE, low, high] ++ front) ++ (partition.guid ++ style.write) := by
      rw [hwrite, hdata, List.append_assoc]
      rfl
    have hlength' : ([MEDIA, HARD_DRIVE, low, high] ++ front).length = 24 := by
      rw [List.length_append, hfront]
      rfl
    have hguid : slice (drive partition style).write 24 40 = some partition.guid := by
      rw [hbytes]
      exact slice_append _ _ _ hlength' (by rw [partition.length_guid])
    have hsignature : (drive partition style).write[41]? = style.write[1]? := by
      rw [hbytes, List.getElem?_append_right (by omega),
        List.getElem?_append_right (by rw [partition.length_guid]; omega), hlength', partition.length_guid]
    have hnot : ¬((drive partition style).kind = MEDIA ∧ (drive partition style).subtype = FILE_PATH) := fun h ↦
      absurd h.2 drive_ne_file
    rw [takeNode, if_neg hnot, if_pos ⟨rfl, rfl, hlength⟩, hsignature]
    cases style with
    | gpt =>
      have hlast : Style.gpt.write[1]? = some GUID_SIGNATURE := rfl
      rw [hlast, Option.bind_eq_bind, Option.bind_some, if_pos rfl, hguid]
      rfl
    | mbr => rfl
    | unsigned => rfl
  | boundary => rfl
  | other o =>
    have hfile : ¬(o.kind = MEDIA ∧ o.subtype = FILE_PATH) := fun h ↦ o.not_media ⟨h.1, .inr h.2⟩
    have hdrive : ¬(o.kind = MEDIA ∧ o.subtype = HARD_DRIVE ∧ (other o).write.length = 42) := fun h ↦
      o.not_media ⟨h.1, .inl h.2.1⟩
    exact (if_neg hfile).trans (if_neg hdrive)

/-- What is neither a GPT partition nor a file adds nothing. -/
theorem added_eq {node : Node} {option : Options.LoadOption} (hguid : node.guid? = none) (hpath : node.path? = none) :
    node.added option = option := by
  rw [added, hguid, hpath, Option.getD_none, List.append_nil]
  rfl

theorem takenByLuft (node : Node) (option : Options.LoadOption) :
    Options.takeNode node.kind node.subtype node.data option = some (node.added option) := by
  cases node with
  | file path =>
    have hread : Options.text (utf16_with_nul path.chars) = path.chars := by
      have h := Utf16.read_withNul path.no_nul []
      rwa [List.append_nil] at h
    have hnot : ¬((file path).kind = MEDIA ∧ (file path).subtype = HARD_DRIVE ∧ (file path).data[36]? = some GPT) := by
      exact fun h ↦ absurd h.2.1 drive_ne_file.symm
    rw [Options.takeNode, if_neg hnot, if_pos ⟨rfl, rfl⟩]
    change some ({ option with
      path := option.path ++ Options.text (utf16_with_nul path.chars) } : Options.LoadOption) = _
    rw [hread]
    rfl
  | drive partition style =>
    obtain ⟨front, hfront, hdata⟩ := drive_data partition style
    have hguid : slice (drive partition style).data 20 36 = some partition.guid := by
      rw [hdata]
      exact slice_append _ _ _ hfront (by rw [partition.length_guid])
    have hformat : (drive partition style).data[36]? = style.write[0]? := by
      rw [hdata, List.getElem?_append_right (by omega),
        List.getElem?_append_right (by rw [partition.length_guid]; omega), hfront, partition.length_guid]
    cases style with
    | gpt =>
      rw [Options.takeNode, if_pos ⟨rfl, rfl, hformat⟩, hguid]
      change some _ = some ({ option with
        partition := some (Options.guid_text partition.guid), path := option.path ++ [] } : Options.LoadOption)
      rw [List.append_nil]
    | mbr =>
      have hnot : (drive partition .mbr).data[36]? ≠ some GPT := by
        rw [hformat]
        exact (by decide : (some 1 : Option UInt8) ≠ some GPT)
      rw [Options.takeNode, if_neg fun h ↦ hnot h.2.2, if_neg fun h ↦ drive_ne_file h.2, added_eq rfl rfl]
    | unsigned =>
      have hnot : (drive partition .unsigned).data[36]? ≠ some GPT := by
        rw [hformat]
        exact (by decide : (some 1 : Option UInt8) ≠ some GPT)
      rw [Options.takeNode, if_neg fun h ↦ hnot h.2.2, if_neg fun h ↦ drive_ne_file h.2, added_eq rfl rfl]
  | boundary => exact congrArg some (added_eq rfl rfl).symm
  | other o =>
    have hfile : ¬(o.kind = MEDIA ∧ o.subtype = FILE_PATH) := fun h ↦ o.not_media ⟨h.1, .inr h.2⟩
    have hdrive : ¬(o.kind = MEDIA ∧ o.subtype = HARD_DRIVE ∧ o.data[36]? = some GPT) := fun h ↦
      o.not_media ⟨h.1, .inl h.2.1⟩
    exact ((if_neg hdrive).trans (if_neg hfile)).trans (congrArg some (added_eq rfl rfl).symm)

end Node

/-! ## All nodes -/

theorem nodes_cons {node : Node} (hlength : node.write.length < 65536) (fuel : ℕ) (rest : Bytes) (decoded : Decoded) :
    nodes (fuel + 1) (node.write ++ rest) decoded = nodes fuel rest (node.onto decoded) := by
  obtain ⟨low, high, hle, hwrite⟩ := node.write_eq
  have hofLe : ofLe [low, high] = node.write.length := by
    rw [← hle, ← node.length_write]
    exact ofLe_le hlength
  have hslice : slice (node.write ++ rest) 0 node.write.length = some node.write := slice_start _ _ rfl
  have hrest : sliceFrom (node.write ++ rest) node.write.length = some rest := sliceFrom_append _ _ rfl
  have hfour : node.write.length ≥ 4 := by
    rw [node.length_write]
    omega
  have hend : ¬(node.kind = 0x7f ∧ node.subtype = 0xff) := by
    rintro ⟨hkind, hsubtype⟩
    cases node with
    | file path => exact Node.media_ne_end hkind
    | drive partition style => exact Node.media_ne_end hkind
    | boundary => exact (by decide : (0x01 : UInt8) ≠ 0xff) hsubtype
    | other o => exact o.not_end hkind
  have hform : node.write ++ rest = node.kind :: node.subtype :: low :: high :: (node.data ++ rest) := by
    rw [hwrite]
    rfl
  rw [hform, nodes, ← hform, hofLe, if_pos hfour, hslice]
  dsimp only
  rw [if_neg hend, hrest, node.taken]
  rfl

theorem nodes_end (fuel : ℕ) (more : Bytes) (decoded : Decoded) :
    nodes (fuel + 1) (END ++ more) decoded = some (some decoded) := by
  have hform : END ++ more = 0x7f :: 0xff :: 0x04 :: 0x00 :: more := rfl
  have hofLe : ofLe [0x04, 0x00] = END.length := by decide
  have hslice : slice (END ++ more) 0 END.length = some END := slice_start _ _ rfl
  rw [hform, nodes, ← hform, hofLe, if_pos (by decide), hslice]
  dsimp only
  rw [if_pos ⟨rfl, rfl⟩]

theorem writeAll_cons (node : Node) (rest : List Node) : writeAll (node :: rest) = node.write ++ writeAll rest :=
  List.flatMap_cons

theorem length_le_writeAll (l : List Node) : l.length ≤ (writeAll l).length := by
  induction l with
  | nil => exact Nat.le_refl _
  | cons node l ih =>
    rw [writeAll_cons, List.length_append, List.length_cons, node.length_write]
    omega

/-- Meet reads node after node, each over the ones before it. -/
theorem nodes_writeAll (l : List Node) {fuel : ℕ} (hfuel : l.length < fuel) (hfits : (writeAll l).length < 65536)
    (more : Bytes) (decoded : Decoded) :
    nodes fuel (writeAll l ++ (END ++ more)) decoded =
      some (some (l.foldl (fun decoded node ↦ node.onto decoded) decoded)) := by
  induction l generalizing fuel decoded with
  | nil =>
    obtain ⟨fuel, rfl⟩ := Nat.exists_eq_add_of_lt hfuel
    exact nodes_end _ more decoded
  | cons node l ih =>
    obtain ⟨fuel, rfl⟩ : ∃ k, fuel = k + 1 := Nat.exists_eq_succ_of_ne_zero (by omega)
    rw [writeAll_cons, List.length_append] at hfits
    rw [List.length_cons] at hfuel
    rw [writeAll_cons, List.append_assoc, nodes_cons (by omega), ih (by omega) (by omega), List.foldl_cons]

theorem partitionOf_cons (node : Node) (l : List Node) :
    partitionOf (node :: l) = (partitionOf l).or node.guid? := by
  rw [partitionOf, partitionOf, List.filterMap_cons]
  cases node.guid? with
  | none => rw [Option.or_none]
  | some guid =>
    dsimp only
    rw [List.getLast?_cons]
    cases (l.filterMap Node.guid?).getLast? <;> rfl

theorem fileOf_cons (node : Node) (l : List Node) :
    (filesOf (node :: l)).getLast? = (filesOf l).getLast?.or node.path? := by
  rw [filesOf, filesOf, List.filterMap_cons]
  cases node.path? with
  | none => rw [Option.or_none]
  | some path =>
    dsimp only
    rw [List.getLast?_cons]
    cases (l.filterMap Node.path?).getLast? <;> rfl

theorem foldl_onto (l : List Node) (decoded : Decoded) : l.foldl (fun decoded node ↦ node.onto decoded) decoded =
    { decoded with
      partition := (partitionOf l).or decoded.partition
      file := (filesOf l).getLast?.or decoded.file } := by
  induction l generalizing decoded with
  | nil => rfl
  | cons node l ih =>
    rw [List.foldl_cons, ih, partitionOf_cons, fileOf_cons, Option.or_assoc, Option.or_assoc]
    rfl

theorem nul_withNul (text : Text) (rest : Bytes) :
    nul (utf16_with_nul text.chars ++ rest) = some (Utf16.encode text.chars).length := by
  have hnot : ∀ unit ∈ Utf16.encode text.chars, decide (unit = 0) = false := fun unit hunit ↦
    decide_eq_false (Utf16.encode_ne_zero text.no_nul hunit)
  have hnone : (Utf16.encode text.chars).findIdx? (fun unit ↦ decide (unit = 0)) = none :=
    List.findIdx?_eq_none_iff.2 hnot
  rw [nul, utf16_with_nul, Utf16.pairs_withNul, List.findIdx?_append, hnone, List.findIdx?_cons]
  simp

namespace Entry

variable (entry : Entry)

theorem length_path : entry.path.length < 65536 := entry.fits

/-- Where the path of an entry begins. -/
def start : ℕ := 6 + (Utf16.encode entry.description.chars).length * 2 + 2

theorem length_withNul (text : Text) :
    (utf16_with_nul text.chars).length = (Utf16.encode text.chars).length * 2 + 2 := by
  rw [utf16_with_nul, Utf16.withNul_eq, List.length_append, Utf16.length_toBytes, Nat.mul_comm]
  rfl

theorem numberAt_write : numberAt 2 entry.write 4 = some entry.path.length :=
  numberAt_append _ _ (by have := entry.length_path; omega) (length_le _ _)

theorem sliceFrom_six : sliceFrom entry.write 6 =
    some (utf16_with_nul entry.description.chars ++ (entry.path ++ entry.optional)) := by
  rw [write, ← List.append_assoc]
  exact sliceFrom_append _ _ (by rw [List.length_append, length_le, length_le])

theorem slice_path : slice entry.write entry.start (entry.start + entry.path.length) = some entry.path := by
  rw [write, ← List.append_assoc, ← List.append_assoc]
  refine slice_append _ _ _ ?_ rfl
  rw [List.length_append, List.length_append, length_le, length_le, length_withNul, start]
  omega

theorem slice_description : slice entry.write 6 (6 + (Utf16.encode entry.description.chars).length * 2) =
    some (Utf16.toBytes (Utf16.encode entry.description.chars)) := by
  rw [write, ← List.append_assoc, utf16_with_nul, Utf16.withNul_eq, List.append_assoc (Utf16.toBytes _)]
  refine slice_append _ _ _ (by rw [List.length_append, length_le, length_le]) ?_
  rw [Utf16.length_toBytes, Nat.mul_comm]

theorem sliceFrom_optional : sliceFrom entry.write (entry.start + entry.path.length) = some entry.optional := by
  rw [write, ← List.append_assoc, ← List.append_assoc, ← List.append_assoc]
  refine sliceFrom_append _ _ ?_
  rw [List.length_append, List.length_append, List.length_append, length_le, length_le, length_withNul, start]
  omega

/-- **What Meet reads**: the last partition and the last file. -/
theorem decode_write : decode entry.write = some (some
    { description := entry.description.chars
      partition := partitionOf entry.nodes
      file := (filesOf entry.nodes).getLast?
      windows_object := windows_object entry.optional }) := by
  have hlength : (writeAll entry.nodes).length < 65536 := by
    have := entry.fits
    rw [List.length_append] at this
    omega
  have hfuel : entry.nodes.length < entry.path.length + 1 := by
    have := length_le_writeAll entry.nodes
    rw [path, List.length_append]
    omega
  have hdescription : utf16 (Utf16.toBytes (Utf16.encode entry.description.chars)) = entry.description.chars :=
    Utf16.read_toBytes entry.description.no_nul
  rw [decode, entry.numberAt_write, entry.sliceFrom_six, Option.bind_some, nul_withNul]
  dsimp only
  rw [show 6 + (Utf16.encode entry.description.chars).length * 2 + 2 = entry.start from rfl, entry.slice_path]
  dsimp only
  rw [entry.slice_description, entry.sliceFrom_optional]
  refine (nodes_writeAll entry.nodes hfuel hlength entry.more _).trans ?_
  rw [foldl_onto, hdescription, Option.or_none, Option.or_none]

end Entry

/-! ## What Luft reads -/

/-- An end is where Luft stops. -/
theorem stops (before rest : Bytes) {subtype low high : UInt8} (fuel : ℕ) (option : Options.LoadOption) :
    Options.nodes (before ++ (Options.END :: subtype :: low :: high :: rest)) (fuel + 1) before.length option =
      some (some option) := by
  have hkind : (before ++ (Options.END :: subtype :: low :: high :: rest))[before.length]? = some Options.END := by
    rw [List.getElem?_append_right (Nat.le_refl _), Nat.sub_self]
    rfl
  have hsubtype : (before ++ (Options.END :: subtype :: low :: high :: rest))[before.length + 1]? = some subtype := by
    rw [List.getElem?_append_right (by omega), Nat.add_sub_cancel_left]
    rfl
  obtain ⟨length, hlength⟩ : ∃ length, Options.u16_at (before ++ (Options.END :: subtype :: low :: high :: rest))
      (before.length + 2) = some length := by
    have hslice := slice_append (before ++ [Options.END, subtype]) [low, high] rest
      (List.length_append : _ = before.length + 2) (rfl : _ = before.length + 2 + 2)
    rw [List.append_assoc] at hslice
    exact ⟨_, (congrArg (Option.map ofLe) hslice :)⟩
  rw [Options.nodes, hkind, hsubtype, hlength]
  exact if_pos (.inl rfl)

/-- Luft reads node after node. -/
theorem luft_nodes_cons {node : Node} (hnode : node.isBoundary = false) (hlength : node.write.length < 65536)
    (before rest : Bytes) (fuel : ℕ) (option : Options.LoadOption) :
    Options.nodes (before ++ (node.write ++ rest)) (fuel + 1) before.length option =
      Options.nodes (before ++ (node.write ++ rest)) fuel (before.length + node.write.length) (node.added option) := by
  obtain ⟨low, high, hle, hwrite⟩ := node.write_eq
  have hform : node.write ++ rest = node.kind :: node.subtype :: low :: high :: (node.data ++ rest) := by
    rw [hwrite]
    rfl
  have hkind : (before ++ (node.write ++ rest))[before.length]? = some node.kind := by
    rw [List.getElem?_append_right (Nat.le_refl _), Nat.sub_self, hform]
    rfl
  have hsubtype : (before ++ (node.write ++ rest))[before.length + 1]? = some node.subtype := by
    rw [List.getElem?_append_right (by omega), Nat.add_sub_cancel_left, hform]
    rfl
  have hsize : Options.u16_at (before ++ (node.write ++ rest)) (before.length + 2) = some node.write.length := by
    rw [node.length_write] at hlength ⊢
    rw [Node.write, List.append_assoc, List.append_assoc, ← List.append_assoc before]
    exact numberAt_append _ _ (by omega) List.length_append
  have hdata : slice (before ++ (node.write ++ rest)) (before.length + 4) (before.length + node.write.length) =
      some node.data := by
    rw [node.length_write, Node.write, List.append_assoc _ _ rest, ← List.append_assoc before]
    refine slice_append _ _ _ ?_ (by omega)
    rw [List.length_append, List.length_append, length_le]
    rfl
  have hend : ¬(node.kind = Options.END ∨ node.write.length < 4) := by
    rintro (hkind | hshort)
    · cases node with
      | file path => exact Node.media_ne_end hkind
      | drive partition style => exact Node.media_ne_end hkind
      | boundary => cases hnode
      | other o => exact o.not_end hkind
    · rw [node.length_write] at hshort
      omega
  rw [Options.nodes, hkind, hsubtype, hsize]
  dsimp only
  rw [if_neg hend, hdata, Option.bind_some, node.takenByLuft]

theorem luft_nodes_writeAll (l : List Node) {fuel : ℕ} (hfuel : l.length < fuel) (hfits : (writeAll l).length < 65536)
    (before more : Bytes) (option : Options.LoadOption) :
    Options.nodes (before ++ (writeAll l ++ (END ++ more))) fuel before.length option =
      some (some ((firstInstance l).foldl (fun option node ↦ node.added option) option)) := by
  induction l generalizing fuel before option with
  | nil =>
    obtain ⟨fuel, rfl⟩ := Nat.exists_eq_add_of_lt hfuel
    exact stops before more _ option
  | cons node l ih =>
    obtain ⟨fuel, rfl⟩ : ∃ k, fuel = k + 1 := Nat.exists_eq_succ_of_ne_zero (by omega)
    rw [writeAll_cons, List.length_append] at hfits
    rw [List.length_cons] at hfuel
    rw [writeAll_cons, List.append_assoc]
    by_cases hnode : node.isBoundary
    · cases node with
      | boundary => exact stops before _ fuel option
      | file path => cases hnode
      | drive partition style => cases hnode
      | other o => cases hnode
    · rw [Bool.not_eq_true] at hnode
      have hfirst : firstInstance (node :: l) = node :: firstInstance l :=
        List.takeWhile_cons_of_pos (by rw [hnode]; rfl)
      rw [luft_nodes_cons hnode (by omega), hfirst, List.foldl_cons, ← List.append_assoc, ← List.length_append,
        ih (by omega) (by omega)]

theorem foldl_added (l : List Node) (option : Options.LoadOption) :
    l.foldl (fun option node ↦ node.added option) option =
      { option with
        partition := ((partitionOf l).map Options.guid_text).or option.partition
        path := option.path ++ (filesOf l).flatten } := by
  induction l generalizing option with
  | nil =>
    change option = { option with partition := option.partition, path := option.path ++ [] }
    rw [List.append_nil]
  | cons node l ih =>
    have hfiles : (filesOf (node :: l)).flatten = node.path?.getD [] ++ (filesOf l).flatten := by
      rw [filesOf, filesOf, List.filterMap_cons]
      cases node.path? <;> rfl
    rw [List.foldl_cons, ih, partitionOf_cons, hfiles, Option.map_or, Option.or_assoc]
    rw [← List.append_assoc]
    rfl

/-- The first of the positions six, eight, ten… that fits. -/
theorem find_range {p : ℕ → Bool} {start k count : ℕ} (hk : k < count) (hp : p (start + 2 * k) = true)
    (hnot : ∀ j < k, p (start + 2 * j) = false) : (List.range' start count 2).find? p = some (start + 2 * k) := by
  induction k generalizing start count with
  | zero =>
    obtain ⟨count, rfl⟩ : ∃ n, count = n + 1 := Nat.exists_eq_succ_of_ne_zero (by omega)
    rw [List.range'_succ]
    exact List.find?_cons_of_pos hp
  | succ k ih =>
    obtain ⟨count, rfl⟩ : ∃ n, count = n + 1 := Nat.exists_eq_succ_of_ne_zero (by omega)
    have hrest : (List.range' (start + 2) count 2).find? p = some (start + 2 + 2 * k) := by
      refine ih (by omega) ?_ fun j hj ↦ ?_
      · rwa [show start + 2 + 2 * k = start + 2 * (k + 1) by omega]
      · rw [show start + 2 + 2 * j = start + 2 * (j + 1) by omega]
        exact hnot (j + 1) (by omega)
    have hfirst : p start = false := hnot 0 (by omega)
    rw [List.range'_succ, List.find?_cons_of_neg (by rw [hfirst]; exact Bool.false_ne_true), hrest]
    exact congrArg some (by omega)

theorem u16_at_toBytes {units : List ℕ} (hunits : ∀ unit ∈ units, unit < 65536) {before : Bytes} {position : ℕ}
    (hbefore : before.length = position) (rest : Bytes) {k : ℕ} (hk : k < units.length) :
    Options.u16_at (before ++ (Utf16.toBytes units ++ rest)) (position + 2 * k) = some (units[k]) := by
  have hsplit : Utf16.toBytes units =
      Utf16.toBytes (units.take k) ++ (le 2 units[k] ++ Utf16.toBytes (units.drop (k + 1))) := by
    rw [← Utf16.toBytes_cons, List.getElem_cons_drop, Utf16.toBytes, Utf16.toBytes, Utf16.toBytes,
      ← List.flatMap_append, List.take_append_drop]
  have htake : (before ++ Utf16.toBytes (units.take k)).length = position + 2 * k := by
    rw [List.length_append, Utf16.length_toBytes, List.length_take, hbefore]
    omega
  rw [hsplit, List.append_assoc, List.append_assoc, ← List.append_assoc before]
  exact numberAt_append _ _ (hunits _ (List.getElem_mem hk)) htake

namespace Entry

variable (entry : Entry)

theorem find_label : (List.range' 6 ((entry.write.length - 6 + 1) / 2) 2).find?
    (fun i ↦ Options.u16_at entry.write i = some 0) =
      some (6 + (Utf16.encode entry.description.chars).length * 2) := by
  have hunits : ∀ unit ∈ Utf16.encode entry.description.chars ++ [0], unit < 65536 := by
    intro unit hunit
    rcases List.mem_append.1 hunit with hunit | hunit
    · exact Utf16.encode_lt hunit
    · rw [List.mem_singleton.1 hunit]
      decide
  have hat (k : ℕ) (hk : k < (Utf16.encode entry.description.chars ++ [0]).length) :
      Options.u16_at entry.write (6 + 2 * k) = some (Utf16.encode entry.description.chars ++ [0])[k] := by
    rw [write, ← List.append_assoc]
    exact u16_at_toBytes hunits (by rw [List.length_append, length_le, length_le]) _ hk
  have hlength : (Utf16.encode entry.description.chars ++ [0]).length =
      (Utf16.encode entry.description.chars).length + 1 := List.length_append
  rw [Nat.mul_comm _ 2]
  refine find_range ?_ (decide_eq_true ?_) fun j hj ↦ decide_eq_false ?_
  · rw [write, List.length_append, List.length_append, List.length_append, length_le, length_le, length_withNul]
    omega
  · rw [hat _ (by omega), List.getElem_concat_length rfl]
  · rw [hat j (by omega), List.getElem_append_left hj]
    exact fun h ↦ Utf16.encode_ne_zero entry.description.no_nul (List.getElem_mem hj) (Option.some.inj h)

/-- **What Luft reads**: of the first instance, the last partition and all files together. -/
theorem parse_write (number : ℕ) : Options.parse number entry.write = some (some
    { number
      label := entry.description.chars
      partition := (partitionOf (firstInstance entry.nodes)).map Options.guid_text
      path := (filesOf (firstInstance entry.nodes)).flatten }) := by
  have hlength : (writeAll entry.nodes).length < 65536 := by
    have := entry.fits
    rw [List.length_append] at this
    omega
  have hfuel : entry.nodes.length < entry.path.length + 1 := by
    have := length_le_writeAll entry.nodes
    rw [path, List.length_append]
    omega
  have hdescription : Options.text (Utf16.toBytes (Utf16.encode entry.description.chars)) = entry.description.chars :=
    Utf16.read_toBytes entry.description.no_nul
  rw [Options.parse, Options.u16_at, entry.numberAt_write, entry.find_label]
  dsimp only
  rw [entry.slice_description, Option.bind_eq_bind, Option.bind_some,
    show 6 + (Utf16.encode entry.description.chars).length * 2 + 2 = entry.start from rfl, entry.slice_path]
  refine (luft_nodes_writeAll entry.nodes hfuel hlength [] entry.more _).trans ?_
  rw [foldl_added, hdescription, Option.or_none, List.nil_append]

end Entry

end Boot

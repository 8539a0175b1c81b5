import Luft.Boot.Entries
import Mathlib.Data.List.GetD
import Mathlib.Tactic.IntervalCases

/-!
# Which boot entries mean the same to Meet and to Luft

What Meet writes is read back by both, and neither reads outside the bytes or goes on for ever
(`decode_isSome`, `parse_isSome`).  The two agree about an entry, and `starts` is about what it starts, exactly when
the entry is `Clear`.
-/

set_option autoImplicit false

namespace Boot

open LittleEndian Slices

/-! ## Partitions as text -/

theorem hexDigits_byte (k n : ℕ) {b : ℕ} (hb : b < 256) :
    hexDigits (k + 2) (n * 256 + b) = hexDigits k n ++ hexDigits 2 b := by
  have h₁ : (n * 256 + b) / 16 / 16 = n := by omega
  have h₂ : (n * 256 + b) / 16 % 16 = b / 16 % 16 := by omega
  have h₃ : (n * 256 + b) % 16 = b % 16 := by omega
  rw [hexDigits, hexDigits, h₁, h₂, h₃, List.append_assoc]
  rfl

theorem take_two {bytes : Bytes} {i : ℕ} (h : i + 2 ≤ bytes.length) :
    (bytes.drop i).take 2 = [bytes.getD i 0, bytes.getD (i + 1) 0] := by
  rw [List.drop_eq_getElem_cons (by omega), List.drop_eq_getElem_cons (by omega), List.take_succ_cons,
    List.take_succ_cons, List.take_zero, List.getD_eq_getElem _ _ (by omega), List.getD_eq_getElem _ _ (by omega)]

theorem take_four {bytes : Bytes} (h : 4 ≤ bytes.length) :
    bytes.take 4 = [bytes.getD 0 0, bytes.getD 1 0, bytes.getD 2 0, bytes.getD 3 0] := by
  have hfront : bytes.take 2 = [bytes.getD 0 0, bytes.getD 1 0] := take_two (i := 0) (by omega)
  have hback : (bytes.drop 2).take 2 = [bytes.getD 2 0, bytes.getD 3 0] := take_two (by omega)
  rw [show 4 = 2 + 2 from rfl, List.take_add, hfront, hback]
  rfl

theorem hexDigits_two (a b : UInt8) : hexDigits 4 (ofLe [a, b]) = hexDigits 2 b.toNat ++ hexDigits 2 a.toNat := by
  have hof : ofLe [a, b] = (0 * 256 + b.toNat) * 256 + a.toNat := rfl
  rw [hof, hexDigits_byte 2 _ a.toNat_lt, hexDigits_byte 0 _ b.toNat_lt]
  rfl

theorem hexDigits_four (a b c d : UInt8) : hexDigits 8 (ofLe [a, b, c, d]) =
    hexDigits 2 d.toNat ++ (hexDigits 2 c.toNat ++ (hexDigits 2 b.toNat ++ hexDigits 2 a.toNat)) := by
  have hof : ofLe [a, b, c, d] = (ofLe [c, d] * 256 + b.toNat) * 256 + a.toNat := rfl
  rw [hof, hexDigits_byte 6 _ a.toNat_lt, hexDigits_byte 4 _ b.toNat_lt, hexDigits_two, List.append_assoc,
    List.append_assoc]

/-- The two write a partition the same way. -/
theorem guid_text_eq {bytes : Bytes} (h : bytes.length = 16) : Options.guid_text bytes = guid_text bytes := by
  unfold Options.guid_text guid_text
  rw [take_four (by omega), take_two (by omega), take_two (by omega)]
  simp only [hexDigits_two, hexDigits_four, List.append_assoc]

theorem digitChar_injective {a b : ℕ} (ha : a < 16) (hb : b < 16) (h : Nat.digitChar a = Nat.digitChar b) :
    a = b := by
  have hall : ∀ a < 16, ∀ b < 16, Nat.digitChar a = Nat.digitChar b → a = b := by decide
  exact hall a ha b hb h

theorem hexDigits_injective {a b : UInt8} (h : hexDigits 2 a.toNat = hexDigits 2 b.toNat) : a = b := by
  have ha := a.toNat_lt
  have hb := b.toNat_lt
  obtain ⟨hhigh, hlow⟩ : Nat.digitChar (a.toNat / 16 % 16) = Nat.digitChar (b.toNat / 16 % 16) ∧
      Nat.digitChar (a.toNat % 16) = Nat.digitChar (b.toNat % 16) := by
    simpa [hexDigits] using h
  have hhigh := digitChar_injective (by omega) (by omega) hhigh
  have hlow := digitChar_injective (by omega) (by omega) hlow
  exact UInt8.toNat_inj.1 (by omega)

theorem append_hexDigits_inj {a b : UInt8} {s t : List Char}
    (h : hexDigits 2 a.toNat ++ s = hexDigits 2 b.toNat ++ t) : a = b ∧ s = t :=
  ⟨hexDigits_injective (List.append_inj_left h rfl), List.append_inj_right h rfl⟩

theorem append_hexDigits_iff {a b : UInt8} {s t : List Char} :
    hexDigits 2 a.toNat ++ s = hexDigits 2 b.toNat ++ t ↔ a = b ∧ s = t :=
  ⟨append_hexDigits_inj, fun ⟨hbyte, hrest⟩ ↦ by rw [hbyte, hrest]⟩

theorem hexDigits_iff {a b : UInt8} : hexDigits 2 a.toNat = hexDigits 2 b.toNat ↔ a = b :=
  ⟨hexDigits_injective, fun h ↦ by rw [h]⟩

theorem guid_text_injective {a b : Bytes} (ha : a.length = 16) (hb : b.length = 16) (h : guid_text a = guid_text b) :
    a = b := by
  unfold guid_text at h
  simp only [List.append_assoc, append_hexDigits_iff, hexDigits_iff, List.append_cancel_left_eq] at h
  obtain ⟨h₃, h₂, h₁, h₀, h₅, h₄, h₇, h₆, h₈, h₉, h₁₀, h₁₁, h₁₂, h₁₃, h₁₄, h₁₅⟩ := h
  refine List.ext_getElem (ha.trans hb.symm) fun i hi hi' ↦ ?_
  rw [← List.getD_eq_getElem a 0 hi, ← List.getD_eq_getElem b 0 hi']
  rw [ha] at hi
  interval_cases i <;> assumption

/-! ## Any bytes -/

theorem takeNode_isSome (kind subtype : UInt8) {node : Bytes} (hnode : 4 ≤ node.length) (decoded : Decoded) :
    ∃ taken, takeNode kind subtype node decoded = some taken := by
  rw [takeNode]
  split
  · obtain ⟨name, hname⟩ : ∃ name, sliceFrom node 4 = some name := slice_isSome hnode (Nat.le_refl _)
    rw [hname]
    exact ⟨_, rfl⟩
  · split
    · next h =>
      obtain ⟨guid, hguid⟩ : ∃ guid, slice node 24 40 = some guid := slice_isSome (by omega) (by omega)
      rw [List.getElem?_eq_getElem (by omega), Option.bind_eq_bind, Option.bind_some, hguid]
      split <;> exact ⟨_, rfl⟩
    · exact ⟨_, rfl⟩

/-- Every node is shorter than what is left. -/
theorem nodes_isSome {fuel : ℕ} {path : Bytes} (hfuel : path.length < fuel) (decoded : Decoded) :
    ∃ read, nodes fuel path decoded = some read := by
  induction fuel generalizing path decoded with
  | zero => exact absurd hfuel (Nat.not_lt_zero _)
  | succ fuel ih =>
    match path with
    | [] => exact ⟨_, rfl⟩
    | [_] => exact ⟨_, rfl⟩
    | [_, _] => exact ⟨_, rfl⟩
    | [_, _, _] => exact ⟨_, rfl⟩
    | kind :: subtype :: low :: high :: rest =>
      rw [nodes]
      rcases h : (if ofLe [low, high] ≥ 4 then slice (kind :: subtype :: low :: high :: rest) 0 (ofLe [low, high])
        else none) with _ | node
      · exact ⟨_, rfl⟩
      · obtain ⟨hlength, hnode⟩ := Option.ite_none_right_eq_some.1 h
        obtain ⟨hsize, -, hle⟩ := length_slice hnode
        obtain ⟨taken, htaken⟩ := takeNode_isSome kind subtype (by omega : 4 ≤ node.length) decoded
        obtain ⟨left, hleft⟩ := (slice_isSome hle (Nat.le_refl _) :
          ∃ left, slice (kind :: subtype :: low :: high :: rest) _ _ = some left)
        have hshorter := (length_slice hleft).1
        obtain ⟨read, hread⟩ := ih (by omega : left.length < fuel) taken
        dsimp only
        split
        · exact ⟨_, rfl⟩
        · rw [sliceFrom, hleft, Option.bind_eq_bind, Option.bind_some, htaken]
          exact ⟨read, hread⟩

/-- Meet's reader ends on any bytes, without reading outside of them. -/
theorem decode_isSome (option : Bytes) : ∃ read, decode option = some read := by
  rw [decode]
  split
  · next path_length pairs hlength hnul =>
    dsimp only
    split
    · next path hpath =>
      obtain ⟨-, hstart, hstop⟩ := length_slice hpath
      obtain ⟨description, hdescription⟩ : ∃ part, slice option 6 (6 + pairs * 2) = some part :=
        slice_isSome (by omega) (by omega)
      obtain ⟨optional, hoptional⟩ : ∃ part, sliceFrom option (6 + pairs * 2 + 2 + path_length) = some part :=
        slice_isSome (by omega) (Nat.le_refl _)
      rw [hdescription, hoptional]
      exact nodes_isSome (Nat.lt_succ_self _) _
    · exact ⟨_, rfl⟩
  · exact ⟨_, rfl⟩

theorem luft_nodes_isSome (paths : Bytes) {fuel position : ℕ} (hpos : 0 < fuel)
    (hfuel : paths.length < position + fuel) (option : Options.LoadOption) : ∃ read, Options.nodes paths fuel position option = some read := by
  induction fuel generalizing position option with
  | zero => exact absurd hpos (Nat.lt_irrefl _)
  | succ fuel ih =>
    rw [Options.nodes]
    split
    · next kind subtype length _ _ _ =>
      split
      · exact ⟨_, rfl⟩
      · next hstop =>
        split
        · exact ⟨_, rfl⟩
        · next taken htaken =>
          obtain ⟨node, hnode, -⟩ := Option.bind_eq_some_iff.1 htaken
          obtain ⟨-, -, hle⟩ := length_slice hnode
          exact ih (by omega) (by omega) taken
    · exact ⟨_, rfl⟩

/-- Luft's reader ends on any bytes, without reading outside of them. -/
theorem parse_isSome (number : ℕ) (data : Bytes) : ∃ read, Options.parse number data = some read := by
  rw [Options.parse]
  split
  · next paths_length label_end _ hfind =>
    obtain ⟨count, -, rfl⟩ := List.mem_range'.1 (List.mem_of_find?_eq_some hfind)
    have hfound : Options.u16_at data (6 + 2 * count) = some 0 :=
      of_decide_eq_true (List.find?_some hfind :)
    obtain ⟨zero, hzero, -⟩ := Option.map_eq_some_iff.1 hfound
    obtain ⟨-, -, hle⟩ := length_slice hzero
    obtain ⟨label, hlabel⟩ : ∃ part, slice data 6 (6 + 2 * count) = some part := slice_isSome (by omega) (by omega)
    rw [hlabel, Option.bind_eq_bind, Option.bind_some]
    dsimp only
    split
    · exact luft_nodes_isSome _ (Nat.succ_pos _) (by omega) _
    · exact ⟨_, rfl⟩
  · exact ⟨_, rfl⟩

/-! ## Searching -/

theorem any_windows {part bytes : Bytes} {count : ℕ} (hcount : part.length = count) :
    (windows count bytes).any (· == part) = true ↔ part <:+: bytes := by
  subst hcount
  rw [List.any_eq_true]
  constructor
  · rintro ⟨window, hwindow, hpart⟩
    obtain ⟨start, -, rfl⟩ := List.mem_map.1 hwindow
    rw [← beq_iff_eq.1 hpart]
    exact (List.take_prefix _ _).isInfix.trans (List.drop_suffix _ _).isInfix
  · rintro ⟨before, after, rfl⟩
    refine ⟨part, List.mem_map.2 ⟨before.length, ?_, ?_⟩, beq_self_eq_true _⟩
    · rw [List.mem_range, List.length_append, List.length_append]
      omega
    · rw [List.append_assoc, List.drop_left, List.take_left]

/-- `starts` looks for the bytes anywhere. -/
theorem starts_iff (option : Bytes) (partition : Partition) (loader : List Char) :
    starts option partition loader = true ↔ partition.guid <:+: option ∧ utf16_with_nul loader <:+: option := by
  rw [starts, Bool.and_eq_true, any_windows partition.length_guid, any_windows rfl]

theorem data_stands {node : Node} {l : List Node} (h : node ∈ l) : node.data <:+: writeAll l := by
  obtain ⟨before, after, rfl⟩ := List.append_of_mem h
  rw [writeAll, List.flatMap_append, List.flatMap_cons, Node.write, List.append_assoc _ node.data]
  exact List.infix_append_of_infix_right (List.infix_append' _ _ _)

theorem writeAll_stands (entry : Entry) : writeAll entry.nodes <:+: entry.write := by
  rw [Entry.write, Entry.path, List.append_assoc (writeAll entry.nodes)]
  exact List.infix_append_of_infix_right (List.infix_append_of_infix_right (List.infix_append' _ _ _))

/-- A partition that an entry names stands in its bytes. -/
theorem guid_stands {entry : Entry} {guid : Bytes} (h : partitionOf entry.nodes = some guid) :
    guid <:+: entry.write := by
  obtain ⟨node, hnode, hguid⟩ := List.mem_filterMap.1 (List.mem_of_getLast? h)
  have hdata : guid <:+: node.data := by
    cases node with
    | drive partition style =>
      cases style with
      | gpt =>
        cases hguid
        obtain ⟨front, -, hdata⟩ := Node.drive_data partition .gpt
        rw [hdata]
        exact List.infix_append' _ _ _
      | mbr => cases hguid
      | unsigned => cases hguid
    | file path => cases hguid
    | boundary => cases hguid
    | other o => cases hguid
  exact hdata.trans ((data_stands hnode).trans (writeAll_stands entry))

theorem file_stands {entry : Entry} {file : List Char} (h : (filesOf entry.nodes).getLast? = some file) :
    utf16_with_nul file <:+: entry.write := by
  obtain ⟨node, hnode, hfile⟩ := List.mem_filterMap.1 (List.mem_of_getLast? h)
  have hdata : utf16_with_nul file <:+: node.data := by
    cases node with
    | file path =>
      cases hfile
      exact List.infix_rfl
    | drive partition style => cases hfile
    | boundary => cases hfile
    | other o => cases hfile
  exact hdata.trans ((data_stands hnode).trans (writeAll_stands entry))

/-! ## What Meet writes -/

/-- What Meet makes an entry of, when the path of its device fits. -/
structure Made where
  partition : Partition
  loader : Text
  description : Text
  fits : (device_path partition loader.chars).length ≤ 65535

namespace Made

variable (made : Made)

def bytes : Bytes := encode made.partition made.loader.chars made.description.chars

def nodes : List Node := [.drive made.partition .gpt, .file made.loader]

theorem hard_drive_eq (partition : Partition) : hard_drive partition = (Node.drive partition .gpt).write := by
  have hlength : le 2 (4 + (Node.drive partition .gpt).data.length) = [42, 0] := by
    rw [Node.length_drive]
    decide
  rw [Node.write, hlength, Node.data, hard_drive, List.append_assoc _ partition.guid]
  simp only [List.append_assoc]
  rfl

theorem file_path_eq {path : Text} (h : 4 + (utf16_with_nul path.chars).length < 65536) :
    file_path path.chars = (Node.file path).write := by
  rw [file_path, Nat.mod_eq_of_lt h]
  rfl

theorem loader_fits : 4 + (utf16_with_nul made.loader.chars).length < 65536 := by
  have hfits := made.fits
  have hend : END.length = 4 := rfl
  rw [device_path, file_path, List.length_append, List.length_append, List.length_append, hend] at hfits
  omega

theorem device_path_eq : device_path made.partition made.loader.chars = writeAll made.nodes ++ (END ++ []) := by
  have hnil : writeAll [] = [] := rfl
  rw [device_path, hard_drive_eq, file_path_eq made.loader_fits, nodes, writeAll_cons, writeAll_cons, hnil,
    List.append_nil, List.append_nil]

def entry : Entry where
  attributes := 1
  description := made.description
  nodes := made.nodes
  more := []
  optional := []
  fits := by
    rw [← device_path_eq]
    exact Nat.lt_succ_of_le made.fits

theorem bytes_eq : made.bytes = made.entry.write := by
  have hpath : made.entry.path = device_path made.partition made.loader.chars := made.device_path_eq.symm
  have hlength : (device_path made.partition made.loader.chars).length % 65536 =
      (device_path made.partition made.loader.chars).length := Nat.mod_eq_of_lt (Nat.lt_succ_of_le made.fits)
  have hoptional : made.entry.path ++ made.entry.optional = device_path made.partition made.loader.chars := by
    rw [hpath]
    exact List.append_nil _
  rw [Entry.write, hoptional, hpath]
  unfold bytes encode
  dsimp only
  rw [hlength, List.append_assoc, List.append_assoc]
  rfl

theorem windows_object_nil : windows_object [] = none := by
  have hnone : Searching.findFrom marker 0 [] = none := by decide +kernel
  rw [windows_object, hnone]
  rfl

theorem decode_bytes : decode made.bytes = some (some
    { description := made.description.chars
      partition := some made.partition.guid
      file := some made.loader.chars
      windows_object := none }) := by
  rw [bytes_eq, Entry.decode_write]
  exact congrArg (fun object ↦ some (some (Decoded.mk _ _ _ object))) windows_object_nil

theorem parse_bytes (number : ℕ) : Options.parse number made.bytes = some (some
    { number
      label := made.description.chars
      partition := some (guid_text made.partition.guid)
      path := made.loader.chars }) := by
  rw [bytes_eq, Entry.parse_write, ← guid_text_eq made.partition.length_guid]
  exact congrArg (fun path ↦ some (some (Options.LoadOption.mk _ _ _ path))) (List.append_nil _)

end Made

/-! ## The two readers -/

/-- The two read the same description, the same partition and the same file. -/
def Agrees (number : ℕ) (option : Bytes) : Prop :=
  ∃ decoded parsed, decode option = some (some decoded) ∧ Options.parse number option = some (some parsed) ∧
    decoded.description = parsed.label ∧ decoded.partition.map guid_text = parsed.partition ∧
      decoded.file.getD [] = parsed.path

/-- `starts` is about the partition and the file that `decode` finds. -/
def StartsDecoded (option : Bytes) (partition : Partition) (loader : List Char) : Prop :=
  ∃ decoded, decode option = some (some decoded) ∧
    (starts option partition loader = true ↔
      decoded.partition = some partition.guid ∧ decoded.file = some loader)

/-- No partition counts but those of the first instance, no file is in more than one piece, and the bytes of the
partition and of the loader are not both in the entry unless it names them. -/
structure Clear (entry : Entry) (partition : Partition) (loader : List Char) : Prop where
  first : partitionOf (firstInstance entry.nodes) = partitionOf entry.nodes
  whole : (filesOf (firstInstance entry.nodes)).flatten = (filesOf entry.nodes).getLast?.getD []
  named : partition.guid <:+: entry.write → utf16_with_nul loader <:+: entry.write →
    partitionOf entry.nodes = some partition.guid ∧ (filesOf entry.nodes).getLast? = some loader

theorem partitionOf_length {l : List Node} {guid : Bytes} (h : partitionOf l = some guid) : guid.length = 16 := by
  obtain ⟨node, -, hguid⟩ := List.mem_filterMap.1 (List.mem_of_getLast? h)
  cases node with
  | drive partition style =>
    cases style with
    | gpt =>
      cases hguid
      exact partition.length_guid
    | mbr => cases hguid
    | unsigned => cases hguid
  | file path => cases hguid
  | boundary => cases hguid
  | other o => cases hguid

theorem guid_text_iff (l l' : List Node) :
    (partitionOf l).map guid_text = (partitionOf l').map Options.guid_text ↔ partitionOf l' = partitionOf l := by
  cases h : partitionOf l with
  | none =>
    rw [Option.map_none, eq_comm, Option.map_eq_none_iff]
  | some guid =>
    rw [Option.map_some, eq_comm, Option.map_eq_some_iff]
    constructor
    · rintro ⟨guid', hguid', htext⟩
      rw [guid_text_eq (partitionOf_length hguid')] at htext
      rw [hguid', guid_text_injective (partitionOf_length hguid') (partitionOf_length h) htext]
    · intro hguid
      exact ⟨guid, hguid, guid_text_eq (partitionOf_length h)⟩

theorem agrees_iff (number : ℕ) (entry : Entry) : Agrees number entry.write ↔
    partitionOf (firstInstance entry.nodes) = partitionOf entry.nodes ∧
      (filesOf (firstInstance entry.nodes)).flatten = (filesOf entry.nodes).getLast?.getD [] := by
  rw [← guid_text_iff]
  constructor
  · rintro ⟨decoded, parsed, hdecoded, hparsed, -, hpartition, hfile⟩
    rw [entry.decode_write] at hdecoded
    rw [entry.parse_write] at hparsed
    cases hdecoded
    cases hparsed
    exact ⟨hpartition, hfile.symm⟩
  · rintro ⟨hpartition, hfile⟩
    exact ⟨_, _, entry.decode_write, entry.parse_write number, rfl, hpartition, hfile.symm⟩

theorem startsDecoded_iff (entry : Entry) (partition : Partition) (loader : List Char) :
    StartsDecoded entry.write partition loader ↔
      (partition.guid <:+: entry.write → utf16_with_nul loader <:+: entry.write →
        partitionOf entry.nodes = some partition.guid ∧ (filesOf entry.nodes).getLast? = some loader) := by
  rw [StartsDecoded, entry.decode_write, starts_iff]
  constructor
  · rintro ⟨decoded, hdecoded, hstarts⟩ hguid hloader
    cases hdecoded
    exact hstarts.1 ⟨hguid, hloader⟩
  · intro h
    refine ⟨_, rfl, fun ⟨hguid, hloader⟩ ↦ h hguid hloader, fun ⟨hguid, hloader⟩ ↦ ?_⟩
    exact ⟨guid_stands hguid, file_stands hloader⟩

def disk : Partition where
  number := 1
  first_lba := 2048
  sectors := 409600
  guid := List.replicate 16 7
  length_guid := List.length_replicate

def folder : Text where
  chars := ['\\', 'E', 'F', 'I']
  no_nul := by simp

def program : Text where
  chars := ['\\', 'a', '.', 'e', 'f', 'i']
  no_nul := by simp

/-- The path of the file is cut in two pieces. -/
def split : Entry where
  attributes := 1
  description := program
  nodes := [.drive disk .gpt, .file folder, .file program]
  more := []
  optional := []
  fits := by decide +kernel

/-- The same program in another folder. -/
def moved : Made where
  partition := disk
  loader := ⟨folder.chars ++ program.chars, by simp [folder, program]⟩
  description := program
  fits := by decide +kernel

end Boot

import Luft.Lib.Slices
import Mathlib.Data.List.TakeWhile

/-!
# Signature lists

The firmware keeps certificates, and what it must not start, in signature lists: a type, three sizes, a header
that depends on the type, and signatures that are all of one size, each with its owner in front.
`signatures_in` walks such lists one after the other.  `none` is a slice that is not inside the bytes, or a
walk that does not end.
-/

set_option autoImplicit false

namespace Trust

namespace SignatureLists

open LittleEndian Slices

abbrev Bytes := List UInt8

/-! ## As the source reads them -/

def X509 : Bytes := [0xa1, 0x59, 0xc0, 0xa5, 0xe4, 0x94, 0xa7, 0x4a, 0x87, 0xb5, 0xab, 0x15, 0x5c, 0x2b, 0xf0, 0x72]

structure Signature where
  kind : Bytes
  data : Bytes
deriving DecidableEq, Repr

def read_u32 (data : Bytes) (position : ℕ) : Option ℕ := numberAt 4 data position

/-- The signatures of the first list from `offset` on. -/
def signaturesFrom (lists : Bytes) (list_size signature_size : ℕ) : ℕ → ℕ → Option (List Signature)
  | 0, offset => if offset + signature_size ≤ list_size then none else some []
  | fuel + 1, offset =>
    if offset + signature_size ≤ list_size then do
      let kind ← slice lists 0 16
      let data ← slice lists (offset + 16) (offset + signature_size)
      let signatures ← signaturesFrom lists list_size signature_size fuel (offset + signature_size)
      pure (⟨kind, data⟩ :: signatures)
    else some []

def listsFrom : ℕ → Bytes → Option (List Signature)
  | 0, lists => if lists.length ≥ 28 then none else some []
  | fuel + 1, lists =>
    if lists.length ≥ 28 then
      match read_u32 lists 16, read_u32 lists 20, read_u32 lists 24 with
      | some list_size, some header_size, some signature_size =>
        if list_size < 28 ∨ list_size > lists.length ∨ signature_size ≤ 16 then some []
        else do
          let signatures ← signaturesFrom lists list_size signature_size list_size (28 + header_size)
          let rest ← sliceFrom lists list_size
          pure (signatures ++ (← listsFrom fuel rest))
      | _, _, _ => some []
    else some []

def signatures_in (lists : Bytes) : Option (List Signature) := listsFrom lists.length lists

def certificates_in (lists : Bytes) : Option (List Bytes) :=
  (signatures_in lists).map fun signatures ↦ (signatures.filter (·.kind = X509)).map (·.data)

/-! ## As the firmware writes them -/

/-- A signature list, each signature with its owner. -/
structure SignatureList where
  kind : Bytes
  header : Bytes
  signature_size : ℕ
  signatures : List (Bytes × Bytes)
  kind_length : kind.length = 16
  sized : ∀ signature ∈ signatures, signature.1.length = 16 ∧ 16 + signature.2.length = signature_size
  size_lt : signature_size < 4294967296
  fits : 28 + header.length + signatures.length * signature_size < 4294967296

namespace SignatureList

variable (list : SignatureList)

def size : ℕ := 28 + list.header.length + list.signatures.length * list.signature_size

def body : Bytes := list.signatures.flatMap fun signature ↦ signature.1 ++ signature.2

def write : Bytes :=
  list.kind ++ (le 4 list.size ++ (le 4 list.header.length ++ (le 4 list.signature_size ++ (list.header ++ list.body))))

/-- What is in the list. -/
def found : List Signature := list.signatures.map fun signature ↦ ⟨list.kind, signature.2⟩

/-- The signatures have room for more than their owner. -/
def hasData : Bool := 16 < list.signature_size

variable {list}

theorem length_body : list.body.length = list.signatures.length * list.signature_size := by
  have hsum : ∀ signatures : List (Bytes × Bytes), (∀ signature ∈ signatures, signature.1.length = 16 ∧
      16 + signature.2.length = list.signature_size) →
      (signatures.flatMap fun signature ↦ signature.1 ++ signature.2).length =
        signatures.length * list.signature_size := by
    intro signatures h
    induction signatures with
    | nil => exact (Nat.zero_mul _).symm
    | cons signature signatures ih =>
      obtain ⟨⟨howner, hdata⟩, hrest⟩ := List.forall_mem_cons.1 h
      rw [List.flatMap_cons, List.length_append, List.length_append, ih hrest, List.length_cons, Nat.succ_mul]
      omega
  exact hsum list.signatures list.sized

theorem length_write : list.write.length = list.size := by
  simp only [write, List.length_append, length_le, list.kind_length, length_body, size]
  omega

end SignatureList

/-! ## The walk through one list -/

variable {lists rest : Bytes} {list_size signature_size offset fuel : ℕ}

theorem signaturesFrom_end (h : list_size < offset + signature_size) :
    signaturesFrom lists list_size signature_size fuel offset = some [] := by
  cases fuel with
  | zero => exact if_neg (by omega)
  | succ fuel => exact if_neg (by omega)

/-- The signatures that were written are the ones that are found. -/
theorem signaturesFrom_written {kind : Bytes} {signatures : List (Bytes × Bytes)} (before after : Bytes)
    (hlists : lists = before ++ ((signatures.flatMap fun signature ↦ signature.1 ++ signature.2) ++ after))
    (hkind : slice lists 0 16 = some kind) (hsized : ∀ signature ∈ signatures,
      signature.1.length = 16 ∧ 16 + signature.2.length = signature_size)
    (hpos : 0 < signature_size) (hoffset : before.length = offset)
    (hsize : list_size = offset + signatures.length * signature_size) (hfuel : signatures.length ≤ fuel) :
    signaturesFrom lists list_size signature_size fuel offset =
      some (signatures.map fun signature ↦ ⟨kind, signature.2⟩) := by
  induction signatures generalizing before offset fuel with
  | nil =>
    rw [List.length_nil, Nat.zero_mul] at hsize
    exact signaturesFrom_end (by omega)
  | cons signature signatures ih =>
    obtain ⟨⟨howner, hdata⟩, hrest⟩ := List.forall_mem_cons.1 hsized
    rw [List.length_cons, Nat.succ_mul] at hsize
    cases fuel with
    | zero => cases hfuel
    | succ fuel =>
      have hslice : slice lists (offset + 16) (offset + signature_size) = some signature.2 := by
        rw [hlists, List.flatMap_cons, List.append_assoc, List.append_assoc, ← List.append_assoc before]
        exact slice_append _ _ _ (by rw [List.length_append]; omega) (by omega)
      have hnext : signaturesFrom lists list_size signature_size fuel (offset + signature_size) =
          some (signatures.map fun signature ↦ ⟨kind, signature.2⟩) := by
        refine ih (before ++ (signature.1 ++ signature.2)) ?_ hrest ?_ (by omega) (Nat.le_of_succ_le_succ hfuel)
        · rw [hlists, List.flatMap_cons]
          simp only [List.append_assoc]
        · rw [List.length_append, List.length_append]
          omega
      rw [signaturesFrom, if_pos (by omega), hkind, hslice, hnext]
      rfl

/-- The walk through a list ends, and stays inside it. -/
theorem signaturesFrom_isSome (hpos : 16 < signature_size) (hsize : list_size ≤ lists.length) (hlong : 16 ≤ list_size)
    (hfuel : list_size ≤ offset + fuel) :
    ∃ found, signaturesFrom lists list_size signature_size fuel offset = some found := by
  induction fuel generalizing offset with
  | zero => exact ⟨[], signaturesFrom_end (by omega)⟩
  | succ fuel ih =>
    by_cases h : offset + signature_size ≤ list_size
    · obtain ⟨kind, hkind⟩ : ∃ kind, slice lists 0 16 = some kind :=
        slice_isSome (Nat.zero_le 16) (hlong.trans hsize)
      obtain ⟨data, hdata⟩ : ∃ data, slice lists (offset + 16) (offset + signature_size) = some data :=
        slice_isSome (by omega) (h.trans hsize)
      obtain ⟨found, hfound⟩ : ∃ found, signaturesFrom lists list_size signature_size fuel
          (offset + signature_size) = some found := ih (by omega)
      refine ⟨⟨kind, data⟩ :: found, ?_⟩
      rw [signaturesFrom, if_pos h, hkind, hdata, hfound]
      rfl
    · exact ⟨[], signaturesFrom_end (by omega)⟩

/-! ## The walk from list to list -/

theorem read_u32_isSome {position : ℕ} (h : position + 4 ≤ lists.length) : ∃ n, read_u32 lists position = some n := by
  obtain ⟨part, hpart⟩ : ∃ part, slice lists position (position + 4) = some part := slice_isSome (by omega) h
  exact ⟨ofLe part, by rw [read_u32, numberAt, hpart, Option.map_some]⟩

/-- **What one turn of the walk does**: it ends, or it takes one list and goes on behind it. -/
theorem listsFrom_cases (lists : Bytes) : (∀ fuel, lists.length ≤ fuel → listsFrom fuel lists = some []) ∨
    ∃ (list_size : ℕ) (signatures : List Signature) (rest : Bytes), sliceFrom lists list_size = some rest ∧
      rest.length < lists.length ∧ ∀ fuel, lists.length ≤ fuel + 1 →
        listsFrom (fuel + 1) lists = (listsFrom fuel rest).map (signatures ++ ·) := by
  by_cases hlong : lists.length ≥ 28
  · obtain ⟨list_size, hlist⟩ : ∃ n, read_u32 lists 16 = some n := read_u32_isSome (by omega)
    obtain ⟨header_size, hheader⟩ : ∃ n, read_u32 lists 20 = some n := read_u32_isSome (by omega)
    obtain ⟨signature_size, hsignature⟩ : ∃ n, read_u32 lists 24 = some n := read_u32_isSome (by omega)
    by_cases hodd : list_size < 28 ∨ list_size > lists.length ∨ signature_size ≤ 16
    · refine .inl fun fuel hfuel ↦ ?_
      cases fuel with
      | zero => omega
      | succ fuel =>
        rw [listsFrom, if_pos hlong, hlist, hheader, hsignature]
        exact if_pos hodd
    · obtain ⟨signatures, hsignatures⟩ : ∃ found, signaturesFrom lists list_size signature_size list_size
          (28 + header_size) = some found :=
        signaturesFrom_isSome (by omega) (by omega) (by omega) (by omega)
      obtain ⟨rest, hrest⟩ : ∃ rest, sliceFrom lists list_size = some rest := slice_isSome (by omega) le_rfl
      have hlength := (length_slice hrest).1
      refine .inr ⟨list_size, signatures, rest, hrest, by omega, fun fuel hfuel ↦ ?_⟩
      rw [listsFrom, if_pos hlong, hlist, hheader, hsignature]
      dsimp only
      rw [if_neg hodd, hsignatures, hrest, Option.bind_eq_bind, Option.bind_some, Option.bind_eq_bind, Option.bind_some]
      cases listsFrom fuel rest <;> rfl
  · refine .inl fun fuel hfuel ↦ ?_
    cases fuel with
    | zero => exact if_neg hlong
    | succ fuel => exact if_neg hlong

/-- Fuel that is enough makes no difference. -/
theorem listsFrom_eq {n m : ℕ} (hn : lists.length ≤ n) (hm : lists.length ≤ m) : listsFrom n lists = listsFrom m lists := by
  induction n generalizing m lists with
  | zero =>
    rcases listsFrom_cases lists with hend | ⟨_, _, rest, -, hlt, -⟩
    · rw [hend _ hn, hend _ hm]
    · omega
  | succ n ih =>
    rcases listsFrom_cases lists with hend | ⟨_, _, rest, -, hlt, hstep⟩
    · rw [hend _ hn, hend _ hm]
    · cases m with
      | zero => omega
      | succ m =>
        have hrest : listsFrom n rest = listsFrom m rest := ih (by omega) (by omega)
        rw [hstep n hn, hstep m hm, hrest]

theorem listsFrom_isSome {n : ℕ} (hn : lists.length ≤ n) : ∃ found, listsFrom n lists = some found := by
  induction n generalizing lists with
  | zero =>
    rcases listsFrom_cases lists with hend | ⟨_, _, rest, -, hlt, -⟩
    · exact ⟨[], hend _ hn⟩
    · omega
  | succ n ih =>
    rcases listsFrom_cases lists with hend | ⟨_, signatures, rest, -, hlt, hstep⟩
    · exact ⟨[], hend _ hn⟩
    · obtain ⟨found, hfound⟩ : ∃ found, listsFrom n rest = some found := ih (by omega)
      exact ⟨signatures ++ found, by rw [hstep n hn, hfound, Option.map_some]⟩

theorem signatures_in_isSome (lists : Bytes) : ∃ found, signatures_in lists = some found := listsFrom_isSome le_rfl

/-- What the walk reads of a list that was written. -/
theorem read_written (list : SignatureList) (rest : Bytes) :
    read_u32 (list.write ++ rest) 16 = some list.size ∧
      read_u32 (list.write ++ rest) 20 = some list.header.length ∧
      read_u32 (list.write ++ rest) 24 = some list.signature_size ∧
      slice (list.write ++ rest) 0 16 = some list.kind := by
  have hbound : (256 : ℕ) ^ 4 = 4294967296 := by norm_num
  have hsize : list.size < 256 ^ 4 := hbound ▸ list.fits
  have hheader : list.header.length < 256 ^ 4 := by
    have := list.fits
    omega
  have hsignature : list.signature_size < 256 ^ 4 := hbound ▸ list.size_lt
  have hkind := list.kind_length
  simp only [SignatureList.write, List.append_assoc]
  refine ⟨numberAt_append _ _ hsize hkind, ?_, ?_, slice_start _ _ hkind⟩
  · rw [← List.append_assoc list.kind]
    refine numberAt_append _ _ hheader ?_
    rw [List.length_append, hkind, length_le]
  · rw [← List.append_assoc list.kind, ← List.append_assoc (list.kind ++ _)]
    refine numberAt_append _ _ hsignature ?_
    rw [List.length_append, List.length_append, hkind, length_le, length_le]

theorem signaturesFrom_write {list : SignatureList} (h : list.hasData) (rest : Bytes) :
    signaturesFrom (list.write ++ rest) list.size list.signature_size list.size (28 + list.header.length) =
      some list.found := by
  have hlarge : 16 < list.signature_size := of_decide_eq_true h
  have hcount : list.signatures.length * 1 ≤ list.signatures.length * list.signature_size :=
    Nat.mul_le_mul_left _ (Nat.one_le_of_lt hlarge)
  refine signaturesFrom_written (list.kind ++ (le 4 list.size ++ (le 4 list.header.length ++
    (le 4 list.signature_size ++ list.header)))) rest ?_ (read_written list rest).2.2.2 list.sized (Nat.zero_lt_of_lt hlarge) ?_ rfl ?_
  · simp only [SignatureList.write, SignatureList.body, List.append_assoc]
  · simp only [List.length_append, list.kind_length, length_le]
    omega
  · rw [SignatureList.size]
    omega

/-- A list that was written is read, and then what comes after it; or the walk ends there. -/
theorem signatures_in_write (list : SignatureList) (rest : Bytes) : signatures_in (list.write ++ rest) =
    if list.hasData then (signatures_in rest).map (list.found ++ ·) else some [] := by
  have hlength : (list.write ++ rest).length = list.size + rest.length := by
    rw [List.length_append, SignatureList.length_write]
  have hlong : 28 ≤ list.size := by
    rw [SignatureList.size]
    omega
  obtain ⟨hsize, hheader, hsignature, -⟩ := read_written list rest
  obtain ⟨fuel, hfuel⟩ : ∃ fuel, (list.write ++ rest).length = fuel + 1 := ⟨list.size + rest.length - 1, by omega⟩
  rw [signatures_in, hfuel, listsFrom, if_pos (by omega), hsize, hheader, hsignature]
  dsimp only
  split
  · next hodd =>
    have hdata : ¬ list.hasData := by
      rw [SignatureList.hasData, decide_eq_true_iff]
      omega
    rw [if_neg hdata]
  · next hodd =>
    have hdata : list.hasData := by
      rw [SignatureList.hasData, decide_eq_true_iff]
      omega
    have hrest : listsFrom fuel rest = listsFrom rest.length rest := listsFrom_eq (by omega) le_rfl
    rw [if_pos hdata, signaturesFrom_write hdata, sliceFrom_append _ _ SignatureList.length_write,
      Option.bind_eq_bind, Option.bind_some, Option.bind_eq_bind, Option.bind_some, signatures_in, hrest]
    cases listsFrom rest.length rest <;> rfl

/-- Several lists one after the other. -/
def writeAll (lists : List SignatureList) : Bytes := lists.flatMap SignatureList.write

def foundAll (lists : List SignatureList) : List Signature := lists.flatMap SignatureList.found

theorem signatures_in_writeAll (lists : List SignatureList) (rest : Bytes) :
    signatures_in (writeAll lists ++ rest) =
      if ∀ list ∈ lists, list.hasData then (signatures_in rest).map (foundAll lists ++ ·)
      else some (foundAll (lists.takeWhile (·.hasData))) := by
  induction lists with
  | nil =>
    obtain ⟨found, hfound⟩ := signatures_in_isSome rest
    rw [if_pos (by simp), writeAll, List.flatMap_nil, List.nil_append, hfound, Option.map_some, foundAll,
      List.flatMap_nil, List.nil_append]
  | cons list lists ih =>
    obtain ⟨found, hfound⟩ := signatures_in_isSome rest
    have hsplit : writeAll (list :: lists) ++ rest = list.write ++ (writeAll lists ++ rest) := by
      rw [writeAll, List.flatMap_cons, List.append_assoc, writeAll]
    rw [hsplit, signatures_in_write, ih, hfound, Option.map_some]
    have hcons : (∀ own ∈ list :: lists, own.hasData) ↔ list.hasData ∧ ∀ own ∈ lists, own.hasData :=
      List.forall_mem_cons
    by_cases h : list.hasData
    · rw [if_pos h, List.takeWhile_cons_of_pos h]
      by_cases hall : ∀ own ∈ lists, own.hasData
      · rw [if_pos hall, if_pos (hcons.2 ⟨h, hall⟩), Option.map_some, Option.map_some, foundAll, foundAll,
          List.flatMap_cons, List.append_assoc]
      · rw [if_neg hall, if_neg fun hown ↦ hall (hcons.1 hown).2, Option.map_some, foundAll, foundAll,
          List.flatMap_cons]
    · rw [if_neg h, if_neg fun hown ↦ h (hcons.1 hown).1, List.takeWhile_cons_of_neg h]
      rfl

/-- **All signatures of all lists** are found, in order, as long as every list has room for data in its signatures,
and what comes after the lists makes no difference to them.  The first list that has none ends the walk.  It ends
on any bytes, and reads only inside them. -/
theorem signatures_found (lists : List SignatureList) (rest : Bytes) :
    (∃ found, signatures_in rest = some found ∧
      signatures_in (writeAll lists ++ rest) =
        some (if ∀ list ∈ lists, list.hasData then foundAll lists ++ found
          else foundAll (lists.takeWhile (·.hasData)))) ∧
      signatures_in (writeAll lists) = some (foundAll (lists.takeWhile (·.hasData))) := by
  obtain ⟨found, hfound⟩ := signatures_in_isSome rest
  refine ⟨⟨found, hfound, ?_⟩, ?_⟩
  · rw [signatures_in_writeAll, hfound]
    split <;> rfl
  · have hnil := signatures_in_writeAll lists []
    rw [List.append_nil] at hnil
    rw [hnil]
    split
    · next hall =>
      have hwhole : lists.takeWhile (·.hasData) = lists :=
        List.takeWhile_eq_self_iff.2 hall
      rw [hwhole, show signatures_in [] = some [] from rfl, Option.map_some, List.append_nil]
    · rfl

theorem length_zeros : (List.replicate 16 (0 : UInt8)).length = 16 := List.length_replicate

/-- A signature that is only an owner. -/
def bare : SignatureList where
  kind := List.replicate 16 0
  header := []
  signature_size := 16
  signatures := [(List.replicate 16 1, [])]
  kind_length := length_zeros
  sized := List.forall_mem_singleton.2 (by decide)
  size_lt := by decide
  fits := by decide

/-- A certificate of one byte. -/
def certificate : SignatureList where
  kind := X509
  header := []
  signature_size := 17
  signatures := [(List.replicate 16 7, [1])]
  kind_length := rfl
  sized := by decide
  size_lt := by decide
  fits := by decide

/-- A certificate behind a signature without data is not found. -/
theorem signatures_hidden : signatures_in (writeAll [bare, certificate]) = some [] ∧
    foundAll [bare, certificate] ≠ [] ∧ certificates_in (writeAll [certificate]) = some [[1]] := by
  decide +kernel

end SignatureLists

end Trust

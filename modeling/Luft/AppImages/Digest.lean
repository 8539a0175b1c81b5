import Mathlib.Data.List.Basic

/-!
# What an update is hashed to

A downloaded file is read in chunks, each of which is hashed as it is and, where the app has a publisher, once
more with some of its bytes zeroed.  `check` does both in one pass; `check_eq` says that it does what two passes
over the whole file would, however the reads cut it.

A hasher is kept as the bytes it was given so far, and what it answers at the end is the hash of those.
-/

set_option autoImplicit false

namespace AppImages

abbrev Bytes := List UInt8

/-- The positions from `start` up to `stop`. -/
structure Range where
  start : ℕ
  stop : ℕ
deriving DecidableEq, Repr

/-- A file, and what reading it from its beginning answers: chunks, and a failure or the end. -/
structure File where
  contents : Bytes
  chunks : List Bytes
  failure : Option String
  chunks_ne : ∀ chunk ∈ chunks, chunk ≠ []
  whole : failure = none → chunks.flatten = contents

/-- The two algorithms. -/
structure Hashes where
  sha1 : Bytes → Bytes
  sha256 : Bytes → Bytes

inductive Expected where
  | sha1 (hash : List Char)
  | sha256 (hash : List Char)
deriving DecidableEq, Repr

def hex (bytes : Bytes) : List Char :=
  bytes.flatMap fun byte ↦ [Nat.digitChar (byte.toNat / 16), Nat.digitChar (byte.toNat % 16)]

/-! ## As the source computes it -/

section Reading

variable {σ : Type} (take : ℕ → Bytes → σ → σ)

def eachFrom : ℕ → List Bytes → σ → σ
  | _, [], s => s
  | offset, chunk :: chunks, s => eachFrom (offset + chunk.length) chunks (take offset chunk s)

def each_chunk (file : File) (s : σ) : Except String σ :=
  match file.failure with
  | some e => .error e
  | none => .ok (eachFrom take 0 file.chunks s)

end Reading

/-- `chunk[start..stop].fill(0)`. -/
def fill (chunk : Bytes) (start stop : ℕ) : Bytes :=
  chunk.take start ++ List.replicate (stop - start) 0 ++ chunk.drop stop

def zeroRange (start stop : ℕ) (chunk : Bytes) (range : Range) : Bytes :=
  let first := max range.start start
  let last := min range.stop stop
  if first < last then fill chunk (first - start) (last - start) else chunk

def zero (chunk : Bytes) (start : ℕ) (ranges : List Range) : Bytes :=
  ranges.foldl (zeroRange start (start + chunk.length)) chunk

/-- The hashers, with what they were given. -/
structure Hashers where
  sha1 : Bytes
  sha256 : Bytes
  signed : Option Bytes

structure Checked where
  «matches» : Bool
  signed : Option (List Char)
deriving DecidableEq, Repr

/-- The chunk is hashed as it is before it is zeroed in place. -/
def update (expected : Expected) (unsigned : Option (List Range)) (offset : ℕ) (chunk : Bytes) (hashers : Hashers) :
    Hashers where
  sha1 := match expected with
    | .sha1 _ => hashers.sha1 ++ chunk
    | .sha256 _ => hashers.sha1
  sha256 := match expected with
    | .sha1 _ => hashers.sha256
    | .sha256 _ => hashers.sha256 ++ chunk
  signed := match hashers.signed, unsigned with
    | some signed, some ranges => some (signed ++ zero chunk offset ranges)
    | signed, _ => signed

def check (hashes : Hashes) (file : File) (expected : Expected) (unsigned : Option (List Range)) :
    Except String Checked := do
  let hashers ← each_chunk (update expected unsigned) file ⟨[], [], unsigned.map fun _ ↦ []⟩
  pure
    { «matches» :=
        match expected with
        | .sha1 hash => hex (hashes.sha1 hashers.sha1) = hash
        | .sha256 hash => hex (hashes.sha256 hashers.sha256) = hash
      signed := hashers.signed.map fun signed ↦ hex (hashes.sha256 signed) }

/-! ## Over the whole file -/

def Range.Covers (range : Range) (position : ℕ) : Prop := range.start ≤ position ∧ position < range.stop

instance decidableCovers (range : Range) (position : ℕ) : Decidable (range.Covers position) :=
  inferInstanceAs (Decidable (_ ∧ _))

/-- The bytes from a position on, with those inside some range set to zero. -/
def zeroed (ranges : List Range) (start : ℕ) (bytes : Bytes) : Bytes :=
  bytes.mapIdx fun i byte ↦ if ∃ range ∈ ranges, range.Covers (start + i) then 0 else byte

def Expected.Fits (hashes : Hashes) (contents : Bytes) : Expected → Prop
  | .sha1 hash => hex (hashes.sha1 contents) = hash
  | .sha256 hash => hex (hashes.sha256 contents) = hash

instance decidableFits (hashes : Hashes) (contents : Bytes) (expected : Expected) :
    Decidable (expected.Fits hashes contents) :=
  match expected with
  | .sha1 hash => inferInstanceAs (Decidable (hex (hashes.sha1 contents) = hash))
  | .sha256 hash => inferInstanceAs (Decidable (hex (hashes.sha256 contents) = hash))

variable {start stop : ℕ} {chunk : Bytes} {ranges : List Range}

@[simp] theorem length_zeroed (ranges : List Range) (start : ℕ) (bytes : Bytes) :
    (zeroed ranges start bytes).length = bytes.length := List.length_mapIdx

theorem getElem?_zeroed (ranges : List Range) (start : ℕ) (bytes : Bytes) (i : ℕ) :
    (zeroed ranges start bytes)[i]? =
      bytes[i]?.map fun byte ↦ if ∃ range ∈ ranges, range.Covers (start + i) then 0 else byte :=
  List.getElem?_mapIdx

@[simp] theorem zeroed_nil (start : ℕ) (bytes : Bytes) : zeroed [] start bytes = bytes := by
  refine List.ext_getElem? fun i ↦ ?_
  simp [getElem?_zeroed]

theorem zeroed_append (ranges : List Range) (start : ℕ) (bytes more : Bytes) :
    zeroed ranges start (bytes ++ more) =
      zeroed ranges start bytes ++ zeroed ranges (start + bytes.length) more := by
  rw [zeroed, List.mapIdx_append, zeroed, zeroed]
  simp only [Nat.add_assoc, Nat.add_comm bytes.length]

/-- One range after another. -/
theorem zeroed_zeroed (range : Range) (ranges : List Range) (start : ℕ) (bytes : Bytes) :
    zeroed ranges start (zeroed [range] start bytes) = zeroed (range :: ranges) start bytes := by
  refine List.ext_getElem? fun i ↦ ?_
  rw [getElem?_zeroed, getElem?_zeroed, getElem?_zeroed, Option.map_map]
  congr 1
  funext byte
  simp only [Function.comp_apply, List.mem_singleton, exists_eq_left, List.exists_mem_cons_iff]
  split <;> split <;> simp_all

theorem length_fill (hle : start ≤ stop) (hstop : stop ≤ chunk.length) :
    (fill chunk start stop).length = chunk.length := by
  rw [fill, List.length_append, List.length_append, List.length_take, List.length_replicate, List.length_drop]
  omega

theorem getElem?_fill (hle : start ≤ stop) (hstop : stop ≤ chunk.length) (i : ℕ) :
    (fill chunk start stop)[i]? = if start ≤ i ∧ i < stop then some 0 else chunk[i]? := by
  have htake : (chunk.take start).length = start := by
    rw [List.length_take]
    omega
  rw [fill, List.append_assoc, List.getElem?_append, List.getElem?_append, htake, List.length_replicate]
  rcases Nat.lt_or_ge i start with hi | hi
  · rw [if_pos hi, if_neg (by omega), List.getElem?_take_of_lt hi]
  rw [if_neg (by omega)]
  rcases Nat.lt_or_ge i stop with hi' | hi'
  · rw [if_pos (by omega), if_pos ⟨hi, hi'⟩, List.getElem?_replicate, if_pos (by omega)]
  · rw [if_neg (by omega), if_neg (by omega), List.getElem?_drop]
    congr 1
    omega

theorem zeroRange_eq (range : Range) (start : ℕ) (chunk : Bytes) :
    zeroRange start (start + chunk.length) chunk range = zeroed [range] start chunk := by
  refine List.ext_getElem? fun i ↦ ?_
  rw [getElem?_zeroed]
  simp only [List.mem_singleton, exists_eq_left]
  rw [zeroRange]
  rcases Nat.lt_or_ge i chunk.length with hi | hi
  · rw [List.getElem?_eq_getElem hi, Option.map_some]
    split
    · next hlt =>
      rw [getElem?_fill (by omega) (by omega), List.getElem?_eq_getElem hi]
      have hiff : max range.start start - start ≤ i ∧ i < min range.stop (start + chunk.length) - start ↔
          range.Covers (start + i) := by
        rw [Range.Covers]
        omega
      simp only [hiff]
      split <;> rfl
    · next hle =>
      rw [if_neg, List.getElem?_eq_getElem hi]
      rintro ⟨hstart, hstop⟩
      omega
  · have hnone : chunk[i]? = none := List.getElem?_eq_none hi
    rw [hnone, Option.map_none]
    split
    · next hlt =>
      rw [getElem?_fill (by omega) (by omega), hnone, if_neg (by omega)]
    · exact hnone

/-- **Filling range after range** zeroes what is inside some range. -/
theorem zero_eq (chunk : Bytes) (start : ℕ) (ranges : List Range) :
    zero chunk start ranges = zeroed ranges start chunk := by
  rw [zero]
  generalize hstop : start + chunk.length = stop
  induction ranges generalizing chunk with
  | nil => rw [List.foldl_nil, zeroed_nil]
  | cons range ranges ih =>
    rw [List.foldl_cons, ← zeroed_zeroed, ← hstop, zeroRange_eq, hstop]
    exact ih _ ((congrArg (start + ·) (length_zeroed ..)).trans hstop)

theorem update_nil (expected : Expected) (unsigned : Option (List Range)) (offset : ℕ) (hashers : Hashers) :
    update expected unsigned offset [] hashers = hashers := by
  obtain ⟨sha1, sha256, signed⟩ := hashers
  cases expected <;> cases signed <;> cases unsigned <;> simp [update, zero_eq, zeroed]

/-- A chunk cut in two gives the hashers what the chunk does. -/
theorem update_append (expected : Expected) (unsigned : Option (List Range)) (offset : ℕ) (chunk more : Bytes)
    (hashers : Hashers) :
    update expected unsigned offset (chunk ++ more) hashers =
      update expected unsigned (offset + chunk.length) more (update expected unsigned offset chunk hashers) := by
  obtain ⟨sha1, sha256, signed⟩ := hashers
  cases expected <;> cases signed <;> cases unsigned <;> simp [update, zero_eq, zeroed_append]

/-- **However a file is cut**, the hashers get what one chunk of the whole would give them. -/
theorem eachFrom_update (expected : Expected) (unsigned : Option (List Range)) (offset : ℕ) (chunks : List Bytes)
    (hashers : Hashers) :
    eachFrom (update expected unsigned) offset chunks hashers =
      update expected unsigned offset chunks.flatten hashers := by
  induction chunks generalizing offset hashers with
  | nil => rw [eachFrom, List.flatten_nil, update_nil]
  | cons chunk chunks ih => rw [eachFrom, ih, List.flatten_cons, update_append]

/-- **A file is checked as a whole**: by the hash of its bytes as they are, and by the hash of those with what is
inside some range set to zero. -/
theorem check_eq (hashes : Hashes) (file : File) (expected : Expected) (unsigned : Option (List Range)) :
    check hashes file expected unsigned =
      match file.failure with
      | some e => .error e
      | none => .ok
          { «matches» := expected.Fits hashes file.contents
            signed := unsigned.map fun ranges ↦ hex (hashes.sha256 (zeroed ranges 0 file.contents)) } := by
  rw [check, each_chunk]
  cases hfailure : file.failure with
  | some e => rfl
  | none =>
    dsimp only
    rw [eachFrom_update, file.whole hfailure]
    have hsigned : ∀ hashers : Hashers, hashers.signed = (unsigned.map fun _ ↦ []) →
        (update expected unsigned 0 file.contents hashers).signed =
          unsigned.map fun ranges ↦ zeroed ranges 0 file.contents := by
      intro hashers h
      cases unsigned <;> simp [update, h, zero_eq]
    have hhashed : (update expected unsigned 0 file.contents ⟨[], [], unsigned.map fun _ ↦ []⟩).signed.map
        (fun signed ↦ hex (hashes.sha256 signed)) =
          unsigned.map fun ranges ↦ hex (hashes.sha256 (zeroed ranges 0 file.contents)) := by
      rw [hsigned _ rfl, Option.map_map]
      rfl
    change Except.ok _ = Except.ok _
    rw [hhashed]
    cases expected <;> rfl

end AppImages

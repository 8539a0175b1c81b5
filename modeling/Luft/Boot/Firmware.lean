import Luft.Boot.Agreeing
import Luft.Lib.Op

/-!
# The firmware's list of entries

Meet and Luft add their entry to the ones the firmware keeps, see to it that it is still there, and remove it.  Each
call of the firmware can fail, with or without its effect.  `others_stay` says that whatever is done and whatever
fails, the entries of others stay as they are and keep their order.
-/

set_option autoImplicit false

namespace Boot

/-- What is stored in the variables. -/
abbrev Store := List Char → Option Bytes

/-- The firmware's variables, and how many calls there have been. -/
structure Firmware where
  stored : Store
  calls : ℕ

inductive Failure
  | unavailable (name : List Char)
  | full

abbrev Act := Op Firmware Failure Empty

def DESCRIPTION : List Char := "Meet Luft".toList

def BOOT_ORDER : List Char := "BootOrder".toList

def BOOT_NEXT : List Char := "BootNext".toList

/-! ## What is written -/

def numbers (order : Bytes) : List ℕ := Utf16.pairs order

def without (order : Bytes) (removed : List ℕ) : Bytes :=
  Utf16.toBytes ((numbers order).filter fun number ↦ !removed.contains number)

def appended (order : Bytes) (number : ℕ) : Bytes := without order [number] ++ LittleEndian.le 2 number

/-- The name of an entry's variable, `Boot` and four digits. -/
def variableOf (number : ℕ) : List Char := "Boot".toList ++ (hexDigits 4 number).map Char.toUpper

/-! ## Calls of the firmware -/

section

variable (fates : ℕ → Fate)

def read (name : List Char) : Act (Option Bytes) := fun s ↦
  ⟨if fates s.calls = .done then .ok (s.stored name) else .error (.unavailable name),
    { s with calls := s.calls + 1 }, []⟩

/-- A variable that nothing is written to is gone. -/
def put (name : List Char) (data : Bytes) (s : Firmware) : Firmware :=
  { s with stored := Function.update s.stored name (if data = [] then none else some data) }

def write (name : List Char) (data : Bytes) : Act Unit := fun s ↦
  Op.attempt (fates s.calls) (.unavailable name) id (put name data) { s with calls := s.calls + 1 }

/-! ## As the source does it -/

def entry (number : ℕ) : Act (Option Bytes) := read fates (variableOf number)

def order : Act Bytes := do
  let order ← read fates BOOT_ORDER
  return order.getD []

/-- The entries with these numbers, without the ones that are not there. -/
def entries : List ℕ → Act (List (ℕ × Bytes))
  | [] => pure []
  | number :: rest => do
    let option ← entry fates number
    let found ← entries rest
    return (option.map fun option ↦ (number, option)).toList ++ found

def listed : Act (List (ℕ × Bytes)) := do
  let order ← order fates
  entries fates (numbers order)

/-- The first of the numbers that has no entry. -/
def firstFree : List ℕ → Act ℕ
  | [] => Op.fail .full
  | number :: rest => do
    let option ← entry fates number
    if option.isNone then return number else firstFree rest

def free_number : Act ℕ := firstFree fates (List.range 65536)

def set_entry (number : ℕ) (option : Bytes) : Act Unit := write fates (variableOf number) option

def set_order (order : Bytes) : Act Unit := write fates BOOT_ORDER order

/-- The number of the first entry that starts the same, or a free one. -/
def numberFor (partition : Partition) (loader : List Char) (found : List (ℕ × Bytes)) : Act ℕ :=
  match found.find? fun found ↦ starts found.2 partition loader with
  | some found => pure found.1
  | none => free_number fates

def add (partition : Partition) (loader description : List Char) : Act ℕ := do
  let found ← listed fates
  let number ← numberFor fates partition loader found
  set_entry fates number (encode partition loader description)
  let order ← order fates
  set_order fates (appended order number)
  return number

/-- The number is in the order, or is put there. -/
def list (number : ℕ) : Act ℕ := do
  let order ← order fates
  Op.onlyIf (!(numbers order).contains number) (set_order fates (appended order number))
  return number

def ensure (partition : Partition) (loader : List Char) (number : ℕ) : Act ℕ := do
  let wanted := encode partition loader DESCRIPTION
  match ← entry fates number with
  | none => add fates partition loader DESCRIPTION
  | some option =>
    if option = wanted then list fates number
    else if starts option partition loader then do
      set_entry fates number wanted
      list fates number
    else add fates partition loader DESCRIPTION

def removeEach : List ℕ → Act Unit
  | [] => pure ()
  | number :: rest => do
    let option ← entry fates number
    Op.onlyIf option.isSome (set_entry fates number [])
    removeEach rest

def remove (removed : List ℕ) : Act Unit := do
  removeEach fates removed
  let order ← order fates
  set_order fates (without order removed)

def boot_next (number : ℕ) : Act Unit := write fates BOOT_NEXT (LittleEndian.le 2 number)

end

/-! ## Numbers and names -/

theorem numbers_lt {order : Bytes} {number : ℕ} (h : number ∈ numbers order) : number < 65536 := by
  revert h
  rw [numbers]
  fun_induction Utf16.pairs order with
  | case1 low high rest ih =>
    intro h
    rcases List.mem_cons.1 h with rfl | h
    · have hlt := LittleEndian.ofLe_lt [low, high]
      rw [List.length_cons, List.length_singleton] at hlt
      omega
    · exact ih h
  | case2 => exact fun h ↦ absurd h List.not_mem_nil

theorem numbers_toBytes {ns : List ℕ} (h : ∀ number ∈ ns, number < 65536) : numbers (Utf16.toBytes ns) = ns := by
  have hpairs := Utf16.pairs_toBytes h []
  rw [List.append_nil] at hpairs
  exact hpairs.trans (List.append_nil ns)

theorem numbers_without (order : Bytes) (removed : List ℕ) :
    numbers (without order removed) = (numbers order).filter fun number ↦ !removed.contains number :=
  numbers_toBytes fun _ h ↦ numbers_lt (List.mem_of_mem_filter h)

theorem appended_eq (order : Bytes) (number : ℕ) :
    appended order number = Utf16.toBytes ((numbers order).filter (fun other ↦ other ≠ number) ++ [number]) := by
  rw [appended, without, Utf16.toBytes, Utf16.toBytes, List.flatMap_append, List.flatMap_singleton]
  simp

theorem numbers_appended (order : Bytes) {number : ℕ} (h : number < 65536) :
    numbers (appended order number) = (numbers order).filter (fun other ↦ other ≠ number) ++ [number] := by
  rw [appended_eq, numbers_toBytes]
  intro other hother
  rcases List.mem_append.1 hother with hother | hother
  · exact numbers_lt (List.mem_of_mem_filter hother)
  · rwa [List.mem_singleton.1 hother]

def digit (n : ℕ) : Char := (Nat.digitChar (n % 16)).toUpper

theorem variableOf_eq (number : ℕ) : variableOf number =
    ['B', 'o', 'o', 't', digit (number / 16 / 16 / 16), digit (number / 16 / 16), digit (number / 16), digit number] :=
  rfl

theorem digit_injective {a b : ℕ} (h : digit a = digit b) : a % 16 = b % 16 := by
  have hall : ∀ a < 16, ∀ b < 16, (Nat.digitChar a).toUpper = (Nat.digitChar b).toUpper → a = b := by decide
  exact hall _ (Nat.mod_lt _ (by decide)) _ (Nat.mod_lt _ (by decide)) h

theorem digit_ne_next (n : ℕ) : digit n ≠ 'N' := by
  have hall : ∀ a < 16, (Nat.digitChar a).toUpper ≠ 'N' := by decide
  exact hall _ (Nat.mod_lt _ (by decide))

/-- The names of entries are different, and none is that of another variable. -/
theorem variableOf_injective {a b : ℕ} (ha : a < 65536) (hb : b < 65536) (h : variableOf a = variableOf b) : a = b := by
  rw [variableOf_eq, variableOf_eq] at h
  simp only [List.cons.injEq, true_and, and_true] at h
  obtain ⟨h₁, h₂, h₃, h₄⟩ := h
  have := digit_injective h₁
  have := digit_injective h₂
  have := digit_injective h₃
  have := digit_injective h₄
  omega

theorem variableOf_ne_order (number : ℕ) : variableOf number ≠ BOOT_ORDER := by
  have hlength : BOOT_ORDER.length = 9 := by decide
  intro h
  rw [← h, variableOf_eq] at hlength
  exact absurd hlength (Nat.ne_of_beq_eq_false rfl)

theorem variableOf_ne_next (number : ℕ) : variableOf number ≠ BOOT_NEXT := by
  have hnext : BOOT_NEXT = ['B', 'o', 'o', 't', 'N', 'e', 'x', 't'] := rfl
  rw [variableOf_eq, hnext]
  simp only [ne_eq, List.cons.injEq, true_and, not_and]
  exact fun h ↦ absurd h (digit_ne_next _)

theorem order_ne_next : BOOT_ORDER ≠ BOOT_NEXT := by decide

/-! ## What each call comes to -/

def At (v : Store) (s : Firmware) : Prop := s.stored = v

/-- A store with one more variable, or one less. -/
def Store.put (v : Store) (name : List Char) (data : Bytes) : Store :=
  Function.update v name (if data = [] then none else some data)

def Store.order (v : Store) : Bytes := (v BOOT_ORDER).getD []

variable {fates : ℕ → Fate} {v : Store}

theorem meets_read (name : List Char) :
    Op.Meets (At v) (read fates name) (fun data s ↦ data = v name ∧ At v s) (At v) := by
  intro s hs
  rw [read]
  split
  · exact ⟨fun data hdata ↦ ⟨by rw [← Except.ok.inj hdata, hs], hs⟩, nofun⟩
  · exact ⟨nofun, fun _ _ ↦ hs⟩

theorem meets_write (name : List Char) (data : Bytes) :
    Op.Meets (At v) (write fates name data) (fun _ ↦ At (v.put name data)) fun s ↦
      At v s ∨ At (v.put name data) s := by
  intro s hs
  have hput : At (v.put name data) (put name data { s with calls := s.calls + 1 }) := by
    rw [At, put, hs, Store.put]
  have hstill : At v { s with calls := s.calls + 1 } := hs
  rw [write]
  rcases Op.attempt_cases (κ := Empty) (fates s.calls) (Failure.unavailable name) id (put name data)
    { s with calls := s.calls + 1 } with ⟨-, heq⟩ | ⟨-, t, heq, ht⟩
  · rw [heq]
    exact ⟨fun _ _ ↦ hput, nofun⟩
  · rw [heq]
    refine ⟨nofun, fun _ _ ↦ ?_⟩
    rcases ht with ⟨-, rfl⟩ | ⟨-, rfl⟩ | ⟨-, rfl⟩
    · exact .inl hstill
    · exact .inl hstill
    · exact .inr hput

theorem meets_order : Op.Meets (At v) (order fates) (fun order s ↦ order = v.order ∧ At v s) (At v) :=
  (meets_read BOOT_ORDER).bind fun _ ↦ .assuming fun h ↦ .pure fun _ hs ↦ ⟨by rw [h, Store.order], hs⟩

/-- The entries that are there, with their numbers. -/
def Store.entries (v : Store) (numbers : List ℕ) : List (ℕ × Bytes) :=
  numbers.flatMap fun number ↦ ((v (variableOf number)).map fun option ↦ (number, option)).toList

theorem meets_entries (numbers : List ℕ) :
    Op.Meets (At v) (entries fates numbers) (fun found s ↦ found = v.entries numbers ∧ At v s) (At v) := by
  induction numbers with
  | nil => exact .pure fun _ h ↦ ⟨rfl, h⟩
  | cons number numbers ih =>
    refine (meets_read _).bind fun option ↦ .assuming fun hoption ↦ ih.bind fun found ↦ .assuming fun hfound ↦ ?_
    refine .pure fun _ hs ↦ ⟨?_, hs⟩
    rw [hoption, hfound]
    rfl

theorem meets_listed :
    Op.Meets (At v) (listed fates) (fun found s ↦ found = v.entries (numbers v.order) ∧ At v s) (At v) :=
  meets_order.bind fun _ ↦ .assuming fun horder ↦ horder ▸ meets_entries _

theorem mem_entries {number : ℕ} {option : Bytes} {ns : List ℕ} :
    (number, option) ∈ v.entries ns ↔ number ∈ ns ∧ v (variableOf number) = some option := by
  simp only [Store.entries, List.mem_flatMap, Option.mem_toList, Option.map_eq_some_iff,
    Prod.mk.injEq]
  constructor
  · rintro ⟨_, hmem, _, hstored, rfl, rfl⟩
    exact ⟨hmem, hstored⟩
  · rintro ⟨hmem, hstored⟩
    exact ⟨number, hmem, option, hstored, rfl, rfl⟩

theorem meets_firstFree (ns : List ℕ) : Op.Meets (At v) (firstFree fates ns)
    (fun number s ↦ (number ∈ ns ∧ v (variableOf number) = none) ∧ At v s) (At v) := by
  induction ns with
  | nil => exact .fail fun _ hs ↦ hs
  | cons number ns ih =>
    refine (meets_read _).bind fun option ↦ .assuming fun hoption ↦ ?_
    split
    · rename_i hnone
      refine .pure fun _ hs ↦ ⟨⟨List.mem_cons_self, ?_⟩, hs⟩
      rwa [hoption, Option.isNone_iff_eq_none] at hnone
    · exact ih.mono (fun _ hs ↦ hs) (fun _ _ h ↦ ⟨⟨List.mem_cons_of_mem _ h.1.1, h.1.2⟩, h.2⟩) fun _ hs ↦ hs

theorem order_put {name : List Char} (h : name ≠ BOOT_ORDER) (data : Bytes) : (v.put name data).order = v.order := by
  rw [Store.order, Store.put, Function.update_of_ne h.symm, Store.order]

theorem order_put_order (data : Bytes) : (v.put BOOT_ORDER data).order = data := by
  rw [Store.order, Store.put, Function.update_self]
  split
  · rename_i h
    rw [h]
    rfl
  · rfl

theorem put_of_ne {name other : List Char} (h : other ≠ name) (data : Bytes) : v.put name data other = v other :=
  Function.update_of_ne h _ _

/-! ## One request -/

/-- A number to put an entry at: that of an entry in the order that starts the same, or a free one if there is none. -/
structure Own (v : Store) (partition : Partition) (loader : List Char) (number : ℕ) : Prop where
  lt : number < 65536
  free : (v (variableOf number) = none ∧ ∀ other option, (other, option) ∈ v.entries (numbers v.order) →
      ¬ starts option partition loader = true) ∨
    ∃ option, (number, option) ∈ v.entries (numbers v.order) ∧ starts option partition loader = true

/-- The variables with an entry in place, and at the end of the order. -/
def Store.entered (v : Store) (number : ℕ) (option : Bytes) : Store :=
  (v.put (variableOf number) option).put BOOT_ORDER (appended v.order number)

theorem meets_free_number : Op.Meets (At v) (free_number fates)
    (fun number s ↦ (number < 65536 ∧ v (variableOf number) = none) ∧ At v s) (At v) :=
  (meets_firstFree _).mono (fun _ hs ↦ hs) (fun _ _ h ↦ ⟨⟨List.mem_range.1 h.1.1, h.1.2⟩, h.2⟩) fun _ hs ↦ hs

variable {partition : Partition} {loader description : List Char}

theorem meets_number {found : List (ℕ × Bytes)} (hfound : found = v.entries (numbers v.order)) :
    Op.Meets (At v) (numberFor fates partition loader found)
      (fun number s ↦ Own v partition loader number ∧ At v s) (At v) := by
  unfold numberFor
  split
  · rename_i own hown
    have hmem := List.mem_of_find?_eq_some hown
    rw [hfound] at hmem
    have hstarts := List.find?_some hown
    exact .pure fun _ hs ↦ ⟨⟨numbers_lt (mem_entries.1 hmem).1, .inr ⟨own.2, hmem, hstarts⟩⟩, hs⟩
  · rename_i hnone
    have hnot (other : ℕ) (option : Bytes) (h : (other, option) ∈ v.entries (numbers v.order)) :
        ¬ starts option partition loader = true := List.find?_eq_none.1 hnone _ (hfound ▸ h)
    exact meets_free_number.mono (fun _ hs ↦ hs) (fun _ _ h ↦ ⟨⟨h.1.1, .inl ⟨h.1.2, hnot⟩⟩, h.2⟩) fun _ hs ↦ hs

/-- What adding an entry comes to when a call fails. -/
def Halfway (v : Store) (number : ℕ) (option : Bytes) (s : Firmware) : Prop :=
  At v s ∨ At (v.put (variableOf number) option) s ∨ At (v.entered number option) s

theorem meets_enter (number : ℕ) (option : Bytes) : Op.Meets (At v) (do
      set_entry fates number option
      let order ← order fates
      set_order fates (appended order number)
      return number) (fun n s ↦ n = number ∧ At (v.entered number option) s) (Halfway v number option) := by
  refine (meets_write _ _).mono (fun _ hs ↦ hs) (fun _ _ h ↦ h) (fun _ h ↦ h.imp_right .inl) |>.bind fun _ ↦ ?_
  refine meets_order.mono (fun _ hs ↦ hs) (fun _ _ h ↦ h) (fun _ h ↦ .inr (.inl h)) |>.bind fun order ↦ ?_
  refine .assuming fun horder ↦ ?_
  rw [order_put (variableOf_ne_order number)] at horder
  subst horder
  exact ((meets_write _ _).mono (fun _ hs ↦ hs) (fun _ _ h ↦ h) (fun _ h ↦ .inr h)).bind fun _ ↦
    .pure fun _ hs ↦ ⟨rfl, hs⟩

/-- **What adding an entry does,** and what is left of it when a call fails. -/
theorem meets_add : Op.Meets (At v) (add fates partition loader description)
    (fun number s ↦ Own v partition loader number ∧ At (v.entered number (encode partition loader description)) s)
    fun s ↦ At v s ∨ ∃ number, Own v partition loader number ∧
      Halfway v number (encode partition loader description) s := by
  refine meets_listed.mono (fun _ hs ↦ hs) (fun _ _ h ↦ h) (fun _ h ↦ .inl h) |>.bind fun found ↦ ?_
  refine .assuming fun hfound ↦ ?_
  refine (meets_number hfound).mono (fun _ hs ↦ hs) (fun _ _ h ↦ h) (fun _ h ↦ .inl h) |>.bind fun number ↦ ?_
  refine .assuming fun hown ↦ ?_
  refine (meets_enter number _).mono (fun _ hs ↦ hs) (fun n s h ↦ ?_) fun _ h ↦ .inr ⟨number, hown, h⟩
  obtain ⟨rfl, hs⟩ := h
  exact ⟨hown, hs⟩

/-- What putting a number into the order comes to. -/
def Store.listing (v : Store) (number : ℕ) : Store :=
  if number ∈ numbers v.order then v else v.put BOOT_ORDER (appended v.order number)

theorem meets_list (number : ℕ) : Op.Meets (At v) (list fates number)
    (fun n s ↦ n = number ∧ At (v.listing number) s) fun s ↦ At v s ∨ At (v.listing number) s := by
  refine meets_order.mono (fun _ hs ↦ hs) (fun _ _ h ↦ h) (fun _ h ↦ .inl h) |>.bind fun order ↦ ?_
  refine .assuming fun horder ↦ ?_
  subst horder
  have hset : Op.Meets (At v)
      (Op.onlyIf (!(numbers v.order).contains number) (set_order fates (appended v.order number)))
      (fun _ ↦ At (v.listing number)) (fun s ↦ At v s ∨ At (v.listing number) s) := by
    refine .onlyIf (fun hnot ↦ ?_) fun hlisted s hs ↦ ?_
    · have hlisting : v.listing number = v.put BOOT_ORDER (appended v.order number) := if_neg (by simpa using hnot)
      rw [hlisting]
      exact meets_write _ _
    · have hlisting : v.listing number = v := if_pos (by simpa using hlisted)
      rwa [hlisting]
  exact hset.bind fun _ ↦ .pure fun _ hs ↦ ⟨rfl, hs⟩

/-- What starts the loader of an entry is found in it again. -/
theorem starts_encode (partition : Partition) (loader description : List Char) :
    starts (encode partition loader description) partition loader = true := by
  have hdrive : partition.guid <:+: hard_drive partition := ⟨_, _, rfl⟩
  have hfile : utf16_with_nul loader <:+: file_path loader := (List.suffix_append _ _).isInfix
  have hpath : device_path partition loader <:+: encode partition loader description := (List.suffix_append _ _).isInfix
  rw [starts_iff]
  refine ⟨(hdrive.trans ?_).trans hpath, (hfile.trans ?_).trans hpath⟩
  · rw [device_path, List.append_assoc]
    exact (List.prefix_append _ _).isInfix
  · exact ⟨_, _, rfl⟩

/-! ## What stays -/

/-- The entries of others and their order, and all that is neither an entry nor about them. -/
structure Frame (foreign : ℕ → Bool) (v w : Store) : Prop where
  entries : ∀ number, foreign number = true → w (variableOf number) = v (variableOf number)
  order : (numbers w.order).filter foreign = (numbers v.order).filter foreign
  rest : ∀ name, name ≠ BOOT_ORDER → name ≠ BOOT_NEXT → (∀ number, name ≠ variableOf number) → w name = v name

namespace Frame

variable {foreign : ℕ → Bool} {w x : Store} {number : ℕ}

theorem refl (foreign : ℕ → Bool) (v : Store) : Frame foreign v v := ⟨fun _ _ ↦ rfl, rfl, fun _ _ _ _ ↦ rfl⟩

theorem trans (h : Frame foreign v w) (h' : Frame foreign w x) : Frame foreign v x where
  entries number hforeign := (h'.entries number hforeign).trans (h.entries number hforeign)
  order := h'.order.trans h.order
  rest name horder hnext hentry := (h'.rest name horder hnext hentry).trans (h.rest name horder hnext hentry)

theorem put_entry (hlt : ∀ n, foreign n = true → n < 65536) (hnumber : number < 65536)
    (hown : foreign number = false) (data : Bytes) : Frame foreign v (v.put (variableOf number) data) where
  entries other hforeign := by
    refine put_of_ne (fun heq ↦ ?_) data
    rw [variableOf_injective (hlt other hforeign) hnumber heq, hown] at hforeign
    exact Bool.false_ne_true hforeign
  order := by rw [order_put (variableOf_ne_order number)]
  rest _ _ _ hentry := put_of_ne (hentry number) data

theorem put_order {order : Bytes} (h : (numbers order).filter foreign = (numbers v.order).filter foreign) :
    Frame foreign v (v.put BOOT_ORDER order) where
  entries number _ := put_of_ne (variableOf_ne_order number) order
  order := by rwa [order_put_order]
  rest _ horder _ _ := put_of_ne horder order

theorem put_next (data : Bytes) : Frame foreign v (v.put BOOT_NEXT data) where
  entries number _ := put_of_ne (variableOf_ne_next number) data
  order := by rw [order_put order_ne_next.symm]
  rest _ _ hnext _ := put_of_ne hnext data

theorem put_appended (hnumber : number < 65536) (hown : foreign number = false) :
    Frame foreign v (v.put BOOT_ORDER (appended v.order number)) := by
  refine put_order ?_
  rw [numbers_appended _ hnumber, List.filter_append, List.filter_filter, List.filter_singleton, hown,
    cond_false, List.append_nil]
  refine List.filter_congr fun other _ ↦ ?_
  by_cases heq : other = number
  · rw [heq, hown, Bool.false_and]
  · simp [heq]

theorem put_without {removed : List ℕ} (hown : ∀ number ∈ removed, foreign number = false) :
    Frame foreign v (v.put BOOT_ORDER (without v.order removed)) := by
  refine put_order ?_
  rw [numbers_without, List.filter_filter]
  refine List.filter_congr fun other _ ↦ ?_
  by_cases hmem : other ∈ removed
  · rw [hown other hmem, Bool.false_and]
  · simp [hmem]

theorem entered (hlt : ∀ n, foreign n = true → n < 65536) (hnumber : number < 65536)
    (hown : foreign number = false) (option : Bytes) : Frame foreign v (v.entered number option) := by
  have horder : (v.put (variableOf number) option).order = v.order := order_put (variableOf_ne_order number) option
  have happended := put_appended (v := v.put (variableOf number) option) hnumber hown
  rw [horder] at happended
  exact (put_entry hlt hnumber hown option).trans happended

theorem listing (hnumber : number < 65536) (hown : foreign number = false) :
    Frame foreign v (v.listing number) := by
  unfold Store.listing
  split
  · exact refl foreign v
  · exact put_appended hnumber hown

theorem halfway (hlt : ∀ n, foreign n = true → n < 65536) (hnumber : number < 65536)
    (hown : foreign number = false) {option : Bytes} {s : Firmware} (h : Halfway v number option s) :
    Frame foreign v s.stored := by
  rcases h with hs | hs | hs
  · rw [hs]
    exact refl foreign v
  · rw [hs]
    exact put_entry hlt hnumber hown option
  · rw [hs]
    exact entered hlt hnumber hown option

end Frame

/-! ## Requests -/

inductive Request
  | add (partition : Partition) (loader description : List Char)
  | ensure (partition : Partition) (loader : List Char) (number : UInt16)
  | remove (removed : List UInt16)
  | boot_next (number : UInt16)

/-- An entry that a request is about. -/
def Request.Concerns : Request → ℕ → Bytes → Prop
  | add partition loader _, _, option => starts option partition loader = true
  | ensure partition loader _, _, option => starts option partition loader = true
  | remove removed, number, _ => number ∈ removed.map UInt16.toNat
  | boot_next _, _, _ => False

def Request.perform (fates : ℕ → Fate) : Request → Act Unit
  | add partition loader description => do
    let _ ← Boot.add fates partition loader description
  | ensure partition loader number => do
    let _ ← Boot.ensure fates partition loader number.toNat
  | remove removed => Boot.remove fates (removed.map UInt16.toNat)
  | boot_next number => Boot.boot_next fates number.toNat

/-- One request after the other, whatever comes of each. -/
def performAll (fates : ℕ → Fate) : List Request → Act Unit
  | [] => pure ()
  | request :: requests => do
    Op.ignore (request.perform fates)
    performAll fates requests

/-- Entries that a request is not about. -/
structure Others (foreign : ℕ → Bool) (v : Store) (request : Request) : Prop where
  lt : ∀ number, foreign number = true → number < 65536
  apart : ∀ number, foreign number = true → ∃ option, v (variableOf number) = some option ∧
    ¬ request.Concerns number option

variable {foreign : ℕ → Bool} {request : Request}

theorem Others.mono {w : Store} (h : Others foreign v request) (hframe : Frame foreign v w) :
    Others foreign w request := by
  refine ⟨h.lt, fun number hforeign ↦ ?_⟩
  rw [hframe.entries number hforeign]
  exact h.apart number hforeign

/-- The number of an own entry is not one of the others'. -/
theorem not_foreign {number : ℕ} (hown : v (variableOf number) = none ∨
      ∃ option, v (variableOf number) = some option ∧ starts option partition loader = true)
    (h : ∀ n, foreign n = true → ∃ option, v (variableOf n) = some option ∧ ¬ starts option partition loader = true) :
    foreign number = false := by
  rw [← Bool.not_eq_true]
  intro hforeign
  obtain ⟨option, hstored, hnot⟩ := h number hforeign
  rcases hown with hnone | ⟨own, hsome, hstarts⟩
  · rw [hnone] at hstored
    cases hstored
  · rw [hsome, Option.some_inj] at hstored
    exact hnot (hstored ▸ hstarts)

theorem Own.not_foreign {number : ℕ} (hown : Own v partition loader number)
    (h : ∀ n, foreign n = true → ∃ option, v (variableOf n) = some option ∧ ¬ starts option partition loader = true) :
    foreign number = false :=
  Boot.not_foreign (hown.free.imp And.left fun ⟨option, hmem, hstarts⟩ ↦ ⟨option, (mem_entries.1 hmem).2, hstarts⟩) h

theorem frame_add (h : Others foreign v (.add partition loader description)) :
    Op.Meets (At v) (add fates partition loader description) (fun _ s ↦ Frame foreign v s.stored)
      fun s ↦ Frame foreign v s.stored := by
  refine meets_add.mono (fun _ hs ↦ hs) (fun number s hs ↦ ?_) fun s hs ↦ ?_
  · rw [hs.2]
    exact .entered h.lt hs.1.lt (hs.1.not_foreign h.apart) _
  · rcases hs with hs | ⟨number, hown, hhalf⟩
    · rw [hs]
      exact .refl foreign v
    · exact .halfway h.lt hown.lt (hown.not_foreign h.apart) hhalf

theorem frame_list {number : ℕ} (hnumber : number < 65536) (hown : foreign number = false) :
    Op.Meets (At v) (list fates number) (fun _ s ↦ Frame foreign v s.stored) fun s ↦ Frame foreign v s.stored := by
  refine (meets_list number).mono (fun _ hs ↦ hs) (fun _ s hs ↦ ?_) fun s hs ↦ ?_
  · rw [hs.2]
    exact .listing hnumber hown
  · rcases hs with hs | hs
    · rw [hs]
      exact .refl foreign v
    · rw [hs]
      exact .listing hnumber hown

theorem frame_ensure {number : UInt16} (h : Others foreign v (.ensure partition loader number)) :
    Op.Meets (At v) (ensure fates partition loader number.toNat) (fun _ s ↦ Frame foreign v s.stored)
      fun s ↦ Frame foreign v s.stored := by
  have hadd : Op.Meets (At v) (add fates partition loader DESCRIPTION) (fun _ s ↦ Frame foreign v s.stored)
      fun s ↦ Frame foreign v s.stored := frame_add ⟨h.lt, h.apart⟩
  have hstill : ∀ s, At v s → Frame foreign v s.stored := by
    intro s hs
    rw [hs]
    exact .refl foreign v
  refine ((meets_read _).mono (fun _ hs ↦ hs) (fun _ _ hs ↦ hs) hstill).bind fun found ↦ .assuming fun hfound ↦ ?_
  rcases found with _ | option
  · exact hadd
  -- an entry that starts the same is not one of the others'
  have hown (hstarts : starts option partition loader = true) : foreign number.toNat = false :=
    not_foreign (.inr ⟨option, hfound.symm, hstarts⟩) h.apart
  dsimp only
  split
  · rename_i hwanted
    exact frame_list number.toNat_lt (hown (hwanted ▸ starts_encode partition loader DESCRIPTION))
  split
  · rename_i hstarts
    have hput : Frame foreign v (v.put (variableOf number.toNat) (encode partition loader DESCRIPTION)) :=
      .put_entry h.lt number.toNat_lt (hown hstarts) _
    refine ((meets_write _ _).mono (fun _ hs ↦ hs) (fun _ _ hs ↦ hs) fun s hs ↦ ?_).bind fun _ ↦ ?_
    · rcases hs with hs | hs
      · exact hstill s hs
      · rw [hs]
        exact hput
    · exact (frame_list number.toNat_lt (hown hstarts)).mono (fun _ hs ↦ hs) (fun _ _ hs ↦ hput.trans hs)
        fun _ hs ↦ hput.trans hs
  · exact hadd

/-- Where a frame has been kept so far, it is kept on. -/
theorem meets_framed {α : Type} {x : Act α}
    (h : ∀ w, Frame foreign v w → Op.Meets (At w) x (fun _ s ↦ Frame foreign w s.stored) fun s ↦ Frame foreign w s.stored) :
    Op.Meets (fun s ↦ Frame foreign v s.stored) x (fun _ s ↦ Frame foreign v s.stored)
      fun s ↦ Frame foreign v s.stored := by
  intro s hs
  obtain ⟨hok, herror⟩ := h s.stored hs s rfl
  exact ⟨fun a ha ↦ hs.trans (hok a ha), fun e he ↦ hs.trans (herror e he)⟩

theorem frame_of_at {s : Firmware} (hs : At v s) : Frame foreign v s.stored := by
  rw [hs]
  exact .refl foreign v

/-- A write that keeps the frame, or fails. -/
theorem frame_write {name : List Char} {data : Bytes} (h : Frame foreign v (v.put name data)) :
    Op.Meets (At v) (write fates name data) (fun _ s ↦ Frame foreign v s.stored) fun s ↦ Frame foreign v s.stored := by
  refine (meets_write name data).mono (fun _ hs ↦ hs) (fun _ s hs ↦ ?_) fun s hs ↦ ?_
  · rwa [hs]
  · rcases hs with hs | hs
    · exact frame_of_at hs
    · rwa [hs]

theorem frame_removeEach (hlt : ∀ n, foreign n = true → n < 65536) {ns : List ℕ}
    (hns : ∀ n ∈ ns, n < 65536 ∧ foreign n = false) (v : Store) : Op.Meets (fun s ↦ Frame foreign v s.stored)
      (removeEach fates ns) (fun _ s ↦ Frame foreign v s.stored) fun s ↦ Frame foreign v s.stored := by
  induction ns with
  | nil => exact .pure fun _ h ↦ h
  | cons number ns ih =>
    obtain ⟨⟨hnumber, hown⟩, hrest⟩ := List.forall_mem_cons.1 hns
    have hread : Op.Meets (fun s ↦ Frame foreign v s.stored) (entry fates number)
        (fun _ s ↦ Frame foreign v s.stored) fun s ↦ Frame foreign v s.stored :=
      meets_framed fun w _ ↦ (meets_read _).mono (fun _ hs ↦ hs) (fun _ _ hs ↦ frame_of_at hs.2) fun _ ↦ frame_of_at
    have hset : Op.Meets (fun s ↦ Frame foreign v s.stored) (set_entry fates number [])
        (fun _ s ↦ Frame foreign v s.stored) fun s ↦ Frame foreign v s.stored :=
      meets_framed fun w _ ↦ frame_write (.put_entry hlt hnumber hown [])
    exact hread.bind fun option ↦ (Op.Meets.onlyIf (fun _ ↦ hset) fun _ _ h ↦ h).bind fun _ ↦ ih hrest

theorem frame_remove {removed : List UInt16} (h : Others foreign v (.remove removed)) :
    Op.Meets (At v) (remove fates (removed.map UInt16.toNat)) (fun _ s ↦ Frame foreign v s.stored)
      fun s ↦ Frame foreign v s.stored := by
  have hown : ∀ number ∈ removed.map UInt16.toNat, foreign number = false := by
    intro number hnumber
    rw [← Bool.not_eq_true]
    intro hforeign
    obtain ⟨option, -, hnot⟩ := h.apart number hforeign
    exact hnot hnumber
  have hns : ∀ number ∈ removed.map UInt16.toNat, number < 65536 ∧ foreign number = false := by
    intro number hnumber
    obtain ⟨short, -, rfl⟩ := List.mem_map.1 hnumber
    exact ⟨short.toNat_lt, hown _ hnumber⟩
  have horder : Op.Meets (fun s ↦ Frame foreign v s.stored) (do
        let order ← order fates
        set_order fates (without order (removed.map UInt16.toNat)))
      (fun _ s ↦ Frame foreign v s.stored) fun s ↦ Frame foreign v s.stored := by
    refine meets_framed fun w _ ↦ ?_
    refine (meets_order.mono (fun _ hs ↦ hs) (fun _ _ hs ↦ hs) fun _ ↦ frame_of_at).bind fun order ↦ ?_
    exact .assuming fun horder ↦ horder ▸ frame_write (.put_without hown)
  exact ((frame_removeEach h.lt hns v).bind fun _ ↦ horder).mono (fun _ ↦ frame_of_at) (fun _ _ hs ↦ hs) fun _ hs ↦ hs

/-- **What one request keeps.** -/
theorem frame_perform (h : Others foreign v request) : Op.Meets (At v) (request.perform fates)
    (fun _ s ↦ Frame foreign v s.stored) fun s ↦ Frame foreign v s.stored := by
  cases request with
  | add partition loader description => exact (frame_add h).bind fun _ ↦ .pure fun _ hs ↦ hs
  | ensure partition loader number => exact (frame_ensure h).bind fun _ ↦ .pure fun _ hs ↦ hs
  | remove removed => exact frame_remove h
  | boot_next number => exact frame_write (.put_next _)

/-- **Whatever is asked, and whichever calls fail,** the entries that no request is about stay as they are and in their
order, and so does all that is neither an entry nor about them. -/
theorem others_stay (fates : ℕ → Fate) (requests : List Request) (s : Firmware)
    (h : ∀ request ∈ requests, Others foreign s.stored request) :
    Frame foreign s.stored (performAll fates requests s).state.stored := by
  induction requests generalizing s with
  | nil => exact .refl foreign _
  | cons request requests ih =>
    obtain ⟨hrequest, hrest⟩ := List.forall_mem_cons.1 h
    have hstep : Frame foreign s.stored (request.perform fates s).state.stored :=
      (frame_perform hrequest).state_of rfl
    exact hstep.trans (ih _ fun other hother ↦ (hrest other hother).mono hstep)

theorem length_sevens : (List.replicate 16 (7 : UInt8)).length = 16 := List.length_replicate

theorem no_nul_a : '\x00' ∉ ['a'] := by decide

theorem no_nul_description : '\x00' ∉ DESCRIPTION := by decide

def onlyPartition : Partition := ⟨1, 2048, 4096, List.replicate 16 7, length_sevens⟩

theorem fits_onlyPartition : (device_path onlyPartition ['a']).length ≤ 65535 := by decide +kernel

/-- An entry for the only partition of a stick. -/
def stick : Made := ⟨onlyPartition, ⟨['a'], no_nul_a⟩, ⟨DESCRIPTION, no_nul_description⟩, fits_onlyPartition⟩

/-- Two entries, the second of which starts the stick. -/
def pc : Firmware where
  stored name := if name = BOOT_ORDER then some [3, 0, 4, 0] else if name = variableOf 3 then some [1, 2, 3]
    else if name = variableOf 4 then some stick.bytes else none
  calls := 0

theorem others_pc : Others (· == 3) pc.stored (.add stick.partition stick.loader.chars stick.description.chars) where
  lt number h := by
    rw [beq_iff_eq] at h
    omega
  apart number h := by
    rw [beq_iff_eq] at h
    have hnot : ¬ starts [1, 2, 3] stick.partition stick.loader.chars = true := by decide +kernel
    exact ⟨[1, 2, 3], h ▸ rfl, hnot⟩

theorem others_stay_pc : Frame (· == 3) pc.stored
    (performAll (fun _ ↦ .late) [.add stick.partition stick.loader.chars stick.description.chars] pc).state.stored :=
  others_stay _ _ pc (List.forall_mem_singleton.2 others_pc)

/-! ## What is made -/

/-- An entry at its number, which reads back, and a store that is otherwise as it was. -/
structure InPlace (made : Made) (number : ℕ) (v w : Store) : Prop where
  lt : number < 65536
  entry : ∃ option, w (variableOf number) = some option ∧ decode option = some (some
    { description := made.description.chars
      partition := some made.partition.guid
      file := some made.loader.chars
      windows_object := none })
  listed : number ∈ numbers w.order
  rest : ∀ name, name ≠ variableOf number → name ≠ BOOT_ORDER → w name = v name

theorem bytes_ne_nil (made : Made) : made.bytes ≠ [] := by
  intro h
  have hdecode := made.decode_bytes
  rw [h] at hdecode
  cases hdecode

theorem entry_put (made : Made) (number : ℕ) (w : Store) :
    w.put (variableOf number) made.bytes (variableOf number) = some made.bytes := by
  rw [Store.put, Function.update_self, if_neg (bytes_ne_nil made)]

theorem numbers_entered {number : ℕ} (h : number < 65536) (option : Bytes) :
    numbers (v.entered number option).order = (numbers v.order).filter (fun other ↦ other ≠ number) ++ [number] := by
  rw [Store.entered, order_put_order, numbers_appended _ h]

theorem inPlace_entered (made : Made) {number : ℕ} (h : number < 65536) :
    InPlace made number v (v.entered number made.bytes) where
  lt := h
  entry := ⟨made.bytes, (put_of_ne (variableOf_ne_order number) _).trans (entry_put made number v), made.decode_bytes⟩
  listed := by
    rw [numbers_entered h]
    exact List.mem_append_right _ (List.mem_singleton.2 rfl)
  rest name hentry horder := (put_of_ne horder _).trans (put_of_ne hentry _)

/-- **An entry that was added** reads back, is the last in the order and there once, and nothing else has changed; it is
only put at a free number when no entry in the order starts the same. -/
theorem added_in_place (fates : ℕ → Fate) (made : Made) (s : Firmware) {number : ℕ}
    (h : (add fates made.partition made.loader.chars made.description.chars s).result = .ok number) :
    let w : Store := (add fates made.partition made.loader.chars made.description.chars s).state.stored
    InPlace made number s.stored w ∧
      numbers w.order = (numbers s.stored.order).filter (fun other ↦ other ≠ number) ++ [number] ∧
      Own s.stored made.partition made.loader.chars number := by
  obtain ⟨hown, hs⟩ := (meets_add s rfl).1 number h
  intro w
  have hw : w = s.stored.entered number made.bytes := hs
  rw [hw]
  exact ⟨inPlace_entered made hown.lt, numbers_entered hown.lt _, hown⟩

theorem added_in_place_pc : InPlace stick 4 pc.stored
    (add (fun _ ↦ .done) stick.partition stick.loader.chars stick.description.chars pc).state.stored :=
  (added_in_place (fun _ ↦ .done) stick pc rfl).1

theorem listing_of_ne {name : List Char} (h : name ≠ BOOT_ORDER) (number : ℕ) : v.listing number name = v name := by
  rw [Store.listing]
  split
  · rfl
  · exact put_of_ne h _

theorem mem_listing {number : ℕ} (h : number < 65536) : number ∈ numbers (v.listing number).order := by
  rw [Store.listing]
  split
  · rename_i hmem
    exact hmem
  · rw [order_put_order, numbers_appended _ h]
    exact List.mem_append_right _ (List.mem_singleton.2 rfl)

theorem inPlace_listing (made : Made) {number : ℕ} {w : Store} (h : number < 65536)
    (hentry : w (variableOf number) = some made.bytes)
    (hrest : ∀ name, name ≠ variableOf number → name ≠ BOOT_ORDER → w name = v name) :
    InPlace made number v (w.listing number) where
  lt := h
  entry := ⟨made.bytes, (listing_of_ne (variableOf_ne_order number) number).trans hentry, made.decode_bytes⟩
  listed := mem_listing h
  rest name hname horder := (listing_of_ne horder number).trans (hrest name hname horder)

/-- **An entry is not made twice.**  Adding it again writes over an entry that is in the order already. -/
theorem added_again (fates fates' : ℕ → Fate) (made again : Made) (s : Firmware) {number number' : ℕ}
    (hpartition : again.partition = made.partition) (hloader : again.loader = made.loader)
    (h : (add fates made.partition made.loader.chars made.description.chars s).result = .ok number)
    (h' : (add fates' again.partition again.loader.chars again.description.chars
      (add fates made.partition made.loader.chars made.description.chars s).state).result = .ok number') :
    let w : Store := (add fates made.partition made.loader.chars made.description.chars s).state.stored
    number' ∈ numbers w.order ∧
      ∃ option, w (variableOf number') = some option ∧ starts option made.partition made.loader.chars = true := by
  obtain ⟨hown, hs⟩ := (meets_add s rfl).1 number h
  obtain ⟨hown', -⟩ := (meets_add _ rfl).1 number' h'
  intro w
  have hw : w = s.stored.entered number made.bytes := hs
  have hplace := inPlace_entered made (v := s.stored) hown.lt
  have hmem : (number, made.bytes) ∈ w.entries (numbers w.order) := by
    refine mem_entries.2 ⟨hw ▸ hplace.listed, ?_⟩
    rw [hw]
    exact (put_of_ne (variableOf_ne_order number) _).trans (entry_put made number s.stored)
  rw [hpartition, hloader] at hown'
  rcases hown'.free with ⟨-, hnot⟩ | ⟨option, hoption, hstarts⟩
  · exact absurd (starts_encode _ _ _) (hnot number made.bytes hmem)
  · exact ⟨(mem_entries.1 hoption).1, option, (mem_entries.1 hoption).2, hstarts⟩

theorem added_again_pc : 4 ∈ numbers (Store.order
    (add (fun _ ↦ .done) stick.partition stick.loader.chars stick.description.chars pc).state.stored) :=
  (@added_again (fun _ ↦ .done) (fun _ ↦ .done) stick stick pc 4 4 rfl rfl rfl rfl).1

end Boot

import Luft.Lib.Checked
import Luft.Lib.Runs
import Luft.SushiBoot.Images

/-!
# Boot counting

The name of an entry's file says how often the entry may still be started before it counts as bad,
and how often it was: `stem+left-done.conf`.  Each start renames the file to one try less and one
more done; when a start is found to be good, the system takes the counter out of the name.

`split_written` reads a name back, whatever stands in its stem: the counter is what comes after the
last `+`, and the numbers have neither a `+` nor a `-` in them.  `starts_le` follows an entry that
is never found good from boot to boot: as long as it is not bad, the starts that renamed its file
and the tries that it has left come to the tries it began with.
-/

set_option autoImplicit false

namespace SushiBoot

namespace Counter

/-! ## Names -/

/-- A `u32` in digits. -/
def number (text : List Char) : Option ℕ :=
  if text ≠ [] ∧ text.all Char.isDigit then
    let value := Nat.ofDigitChars 10 text 0
    if value < 4294967296 then some value else none
  else none

def split (name : String) : String × Option (String × Tries) :=
  let counted := (Text.without_suffix ".conf".toList name.toList).bind fun base ↦
    (Text.rsplit_once '+' base).bind fun halves ↦
      let counter := (Text.split_once ['-'] halves.2).getD (halves.2, "0".toList)
      (number counter.1).bind fun left ↦
        (number counter.2).map fun done ↦ (String.ofList halves.1, ({ left, done } : Tries))
  match counted with
  | some (stem, tries) => (stem ++ ".conf", some (stem, tries))
  | none => (name, none)

/-- The name of an entry's file that has the counter in it. -/
def written (stem : String) (tries : Tries) : String :=
  stem ++ "+" ++ toString tries.left ++ "-" ++ toString tries.done ++ ".conf"

/-- Both counters are `u32`s. -/
structure Fits (tries : Tries) : Prop where
  left : tries.left < 4294967296
  done : tries.done < 4294967296

theorem number_toDigits {n : ℕ} (h : n < 4294967296) : number (Nat.toDigits 10 n) = some n := by
  have hdigits : (Nat.toDigits 10 n).all Char.isDigit :=
    List.all_eq_true.2 fun c hc ↦ Nat.isDigit_of_mem_toDigits (by decide) (by decide) hc
  rw [number, if_pos ⟨Nat.toDigits_ne_nil, hdigits⟩, Nat.ofDigitChars_ten_toDigits]
  exact if_pos h

theorem not_mem_toDigits {c : Char} (hc : c.isDigit = false) (n : ℕ) : c ∉ Nat.toDigits 10 n := by
  intro hmem
  rw [Nat.isDigit_of_mem_toDigits (by decide) (by decide) hmem] at hc
  cases hc

/-- **Reading a name back.** -/
theorem split_written (stem : String) {tries : Tries} (h : Fits tries) :
    split (written stem tries) = (stem ++ ".conf", some (stem, tries)) := by
  have hname : (written stem tries).toList = stem.toList ++ '+' :: (Nat.toDigits 10 tries.left ++
      '-' :: Nat.toDigits 10 tries.done) ++ ".conf".toList := by
    have hmark : "+".toList = ['+'] := rfl
    have hdash : "-".toList = ['-'] := rfl
    simp only [written, String.toList_append, Nat.toString_eq_repr, Nat.toList_repr, hmark, hdash,
      List.append_assoc, List.cons_append, List.nil_append]
  have hplus : '+' ∉ Nat.toDigits 10 tries.left ++ '-' :: Nat.toDigits 10 tries.done := by
    rw [List.mem_append, List.mem_cons, not_or, not_or]
    exact ⟨not_mem_toDigits rfl _, by decide, not_mem_toDigits rfl _⟩
  rw [split, hname, Text.without_suffix_append, Option.bind_some, Text.rsplit_once_eq hplus,
    Option.bind_some, Text.split_once_eq (not_mem_toDigits rfl _)]
  simp only [Option.getD_some, number_toDigits h.left, number_toDigits h.done, Option.bind_some,
    Option.map_some, String.ofList_toList]

end Counter

/-! ## Starting an entry -/

/-- The folder of entry files. -/
def ENTRIES : String := "\\loader\\entries"

/-- What the starts of an entry have to do with: the name of its file on the volume, what the boot menu
that runs read from that, and the path that the system is told to take the counter out of. -/
structure Computer where
  volume : Handle
  file : String
  counted : Option Counted
  boot_count_path : Option String
deriving DecidableEq, Repr

namespace Computer

/-- Renaming the file at a path succeeds if the disk takes it and the entry's file is there. -/
def rename (writable : Bool) (path next : String) (c : Computer) : Option Computer :=
  if writable ∧ path = ENTRIES ++ "\\" ++ c.file then some { c with file := next } else none

/-- `none` where the tries that are left would wrap. -/
def start (counted : Counted) (writable : Bool) (c : Computer) : Option Computer :=
  let directory := counted.directory
  if 0 < counted.tries.left then
    (Checked.sub counted.tries.left 1).map fun left ↦
      let next := Counter.written counted.stem
        { left, done := min (counted.tries.done + 1) 4294967295 }
      match c.rename writable (directory ++ "\\" ++ counted.file) next with
      | none => c
      | some c => { c with boot_count_path := directory ++ "\\" ++ next }
  else some { c with boot_count_path := directory ++ "\\" ++ counted.file }

/-- The menu reads the entry's file when the computer starts. -/
def collect (c : Computer) : Computer :=
  { c with counted := (Counter.split c.file).2.map fun counter ↦
      { volume := c.volume, directory := ENTRIES, stem := counter.1, file := c.file, tries := counter.2 } }

/-- Whether the entry's file says that it is bad. -/
def bad (c : Computer) : Bool := (c.collect.counted.map Counted.bad).getD false

end Computer

/-- What happens to an entry that is never found good: the computer starts its boot menu, and the
menu starts the entry. -/
inductive Happening where
  | boot
  | start (writable : Bool)
deriving DecidableEq, Repr

namespace Happening

def stepChecked : Happening → Computer → Option Computer
  | boot, c => some c.collect
  | start writable, c =>
    match c.counted with
    | some counted => c.start counted writable
    | none => some c

def step (e : Happening) (c : Computer) : Computer := (e.stepChecked c).getD c

def isStart : Happening → Computer → Bool
  | boot, _ => false
  | start _, _ => true

/-- A start that renames the entry's file: the disk takes it, and the menu that starts the entry has
not renamed the file already. -/
def renames : Happening → Computer → Bool
  | boot, _ => false
  | start writable, c => writable && c.counted.any (·.file = c.file)

/-- How many of the starts of a run are of a kind and come before the entry is bad. -/
def startsBefore (kind : Happening → Computer → Bool) : List Happening → Computer → ℕ
  | [], _ => 0
  | e :: es, c => (if kind e c ∧ ¬ c.bad then 1 else 0) + startsBefore kind es (e.step c)

end Happening

/-! ## One step -/

/-- What a start writes. -/
def Tries.next (tries : Tries) : Tries where
  left := tries.left - 1
  done := min (tries.done + 1) 4294967295

theorem Tries.next_fits {tries : Tries} (h : Counter.Fits tries) : Counter.Fits tries.next := by
  have hleft := h.left
  constructor
  · show tries.left - 1 < _
    omega
  · show min _ 4294967295 < _
    omega

theorem Counter.written_inj {stem : String} {a b : Tries} (ha : Fits a) (hb : Fits b)
    (h : written stem a = written stem b) : a = b := by
  have hsplit := congrArg split h
  rw [split_written stem ha, split_written stem hb] at hsplit
  cases hsplit
  rfl

namespace Computer

variable {stem : String} {tries : Tries} {c : Computer}

/-- The entry's file has these tries in its name, and what the menu knows of it was once there. -/
structure Has (stem : String) (tries : Tries) (c : Computer) : Prop where
  fits : Counter.Fits tries
  file : c.file = Counter.written stem tries
  counted : ∀ counted, c.counted = some counted → counted.directory = ENTRIES ∧
    counted.stem = stem ∧ Counter.Fits counted.tries ∧
    counted.file = Counter.written stem counted.tries

theorem Has.collect (h : Has stem tries c) : c.collect.counted =
    some { volume := c.volume, directory := ENTRIES, stem, file := c.file, tries } := by
  rw [Computer.collect, h.file, Counter.split_written stem h.fits]
  rfl

theorem Has.collected (h : Has stem tries c) : Has stem tries c.collect := by
  refine ⟨h.fits, h.file, ?_⟩
  rw [h.collect]
  rintro counted ⟨⟩
  exact ⟨rfl, rfl, h.fits, h.file⟩

theorem Has.bad_iff (h : Has stem tries c) : c.bad = true ↔ tries.left = 0 := by
  rw [bad, h.collect, Option.map_some, Option.getD_some, Counted.bad, beq_iff_eq]

theorem rename_eq (c : Computer) (file : String) (writable : Bool) (next : String) :
    c.rename writable (ENTRIES ++ "\\" ++ file) next =
      if writable && file = c.file then some { c with file := next } else none := by
  rw [Computer.rename]
  refine if_congr ?_ rfl rfl
  rw [Bool.and_eq_true, decide_eq_true_eq, String.append_right_inj]

theorem Has.file_eq_iff (h : Has stem tries c) {counted : Counted}
    (hcounted : c.counted = some counted) : counted.file = c.file ↔ counted.tries = tries := by
  obtain ⟨-, -, hfits, hfile⟩ := h.counted counted hcounted
  rw [hfile, h.file]
  exact ⟨Counter.written_inj hfits h.fits, fun heq ↦ by rw [heq]⟩

/-- **One start**: it takes a try if it renames the file, and otherwise leaves it alone. -/
theorem Has.start (h : Has stem tries c) {counted : Counted} (hcounted : c.counted = some counted)
    (writable : Bool) : ∃ d, c.start counted writable = some d ∧
      Has stem (if (Happening.start writable).renames c ∧ 0 < tries.left then tries.next else tries)
        d := by
  obtain ⟨hdirectory, hstem, hfits, hfile⟩ := h.counted counted hcounted
  have hrenames : (Happening.start writable).renames c =
      (writable && decide (counted.file = c.file)) := by
    rw [Happening.renames, hcounted, Option.any_some]
  have hiff := h.file_eq_iff hcounted
  rw [Computer.start, hdirectory, hrenames]
  split
  · rename_i hleft
    rw [Checked.sub_of_le hleft, Option.map_some]
    refine ⟨_, rfl, ?_⟩
    dsimp only
    rw [rename_eq, hstem]
    by_cases hwrites : (writable && decide (counted.file = c.file)) = true
    · have htries : counted.tries = tries := by
        rw [Bool.and_eq_true, decide_eq_true_eq] at hwrites
        exact hiff.1 hwrites.2
      rw [if_pos hwrites, if_pos ⟨hwrites, htries ▸ hleft⟩]
      refine ⟨tries.next_fits h.fits, ?_, h.counted⟩
      show Counter.written stem counted.tries.next = _
      rw [htries]
    · rw [if_neg hwrites, if_neg fun hand ↦ hwrites hand.1]
      exact h
  · rename_i hleft
    refine ⟨_, rfl, ?_⟩
    have hnot : ¬ ((writable && decide (counted.file = c.file)) = true ∧ 0 < tries.left) := by
      rintro ⟨hwrites, hpos⟩
      rw [Bool.and_eq_true, decide_eq_true_eq] at hwrites
      exact hleft (by rwa [hiff.1 hwrites.2])
    rw [if_neg hnot]
    exact ⟨h.fits, h.file, h.counted⟩

end Computer

/-! ## Any run -/

namespace Happening

variable {stem : String} {tries : Tries} {c : Computer}

/-- **One step.** -/
theorem has_step (h : c.Has stem tries) (e : Happening) :
    e.stepChecked c = some (e.step c) ∧
      (e.step c).Has stem (if e.renames c ∧ 0 < tries.left then tries.next else tries) := by
  cases e with
  | boot => exact ⟨rfl, h.collected⟩
  | start writable =>
    rw [step, stepChecked]
    cases hcounted : c.counted with
    | none =>
      refine ⟨rfl, ?_⟩
      rw [renames, hcounted, Option.any_none, Bool.and_false, if_neg fun hand ↦ Bool.false_ne_true hand.1]
      exact h
    | some counted =>
      obtain ⟨d, hd, hhas⟩ := h.start hcounted writable
      dsimp only
      rw [hd, Option.getD_some]
      exact ⟨rfl, hhas⟩

/-- **The starts that renamed the entry's file before it was bad, and the tries it has left**, come
to the tries it began with. -/
theorem startsBefore_add_left (h : c.Has stem tries) (es : List Happening) :
    ∃ tries', (Runs.after step es c).Has stem tries' ∧
      startsBefore renames es c + tries'.left = tries.left := by
  induction es generalizing c tries with
  | nil => exact ⟨tries, h, Nat.zero_add _⟩
  | cons e es ih =>
    obtain ⟨-, hstep⟩ := has_step h e
    obtain ⟨tries', hafter, hsum⟩ := ih hstep
    refine ⟨tries', hafter, ?_⟩
    rw [startsBefore, Nat.add_assoc, hsum]
    have hbad : (e.renames c ∧ ¬ c.bad) ↔ e.renames c ∧ 0 < tries.left := by
      rw [h.bad_iff, Nat.pos_iff_ne_zero]
    rw [if_congr hbad rfl rfl]
    split
    · rename_i htakes
      show 1 + (tries.left - 1) = tries.left
      have hpos := htakes.2
      omega
    · exact Nat.zero_add _

theorem has_after (h : c.Has stem tries) (es : List Happening) :
    ∃ tries', (Runs.after step es c).Has stem tries' := by
  obtain ⟨tries', hafter, -⟩ := startsBefore_add_left h es
  exact ⟨tries', hafter⟩

/-- Where every start renames the file, those are all the starts there are. -/
theorem startsBefore_eq {es : List Happening}
    (h : Runs.Along step (fun e c ↦ e.isStart c → e.renames c) es c) :
    startsBefore isStart es c = startsBefore renames es c := by
  induction es generalizing c with
  | nil => rfl
  | cons e es ih =>
    rw [startsBefore, startsBefore, ih h.2]
    have hkind : e.isStart c = e.renames c := by
      cases e with
      | boot => rfl
      | start writable => rw [h.1 rfl, isStart]
    rw [hkind]

end Happening

/-- An entry whose stem has both marks in it. -/
def marked (tries : Tries) : Computer where
  volume := 0
  file := Counter.written "luft+2-1" tries
  counted := none
  boot_count_path := none

end SushiBoot

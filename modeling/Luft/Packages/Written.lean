import Luft.Lib.First
import Luft.Lib.Results
import Luft.Packages.Repositories
import Mathlib.Data.List.Forall2

/-!
# Repository files as they are written

What is written of a file that was accepted is read back here: line by line (`lines_render`), then
section by section (`parse_render`).  The text is accepted again whatever the file was, but the
checks look a setting up, which finds its first value, while writing goes through all of them
(`Careful`).
-/

set_option autoImplicit false

namespace Packages

open Text

/-! ## Characters -/

theorem visible_of_alphanum {c : Char} (h : c.isAlphanum) : 0x20 < c.toNat ∧ c.toNat < 0x7f := by
  change ((decide (c.val ≥ 'A'.val ∧ c.val ≤ 'Z'.val) ||
    (decide (c.val ≥ 'a'.val) && decide (c.val ≤ 'z'.val))) ||
      (decide (c.val ≥ '0'.val) && decide (c.val ≤ '9'.val))) = true at h
  simp only [UInt32.le_iff_toNat_le, ge_iff_le, Bool.or_eq_true, Bool.and_eq_true,
    decide_eq_true_eq] at h
  have htoNat : c.val.toNat = c.toNat := rfl
  simp only [htoNat, show 'A'.val.toNat = 65 from rfl, show 'Z'.val.toNat = 90 from rfl,
    show 'a'.val.toNat = 97 from rfl, show 'z'.val.toNat = 122 from rfl,
    show '0'.val.toNat = 48 from rfl, show '9'.val.toNat = 57 from rfl] at h
  omega

theorem separates_of_visible {c : Char} (hlow : 0x20 < c.toNat) (hhigh : c.toNat < 0x7f)
    (hcomma : c ≠ ',') : separates c = false := by
  rw [separates, Bool.or_eq_false_iff, decide_eq_false_iff_not]
  exact ⟨not_whitespace hlow hhigh, hcomma⟩

theorem separates_of_whitespace {c : Char} (h : is_whitespace c) : separates c := by
  rw [separates, h, Bool.true_or]

/-! ## One line -/

/-- A key that is read back as it is, from the front of its line. -/
def plain (key : Str) : Bool :=
  (trim key).map Char.toLower = key && !key.contains '=' && !key.contains '\n' &&
    key.head?.any fun c ↦ !is_whitespace c && !(['#', ';', '['].contains c)

/-- The keys that are written. -/
def settings : List Str := KEPT ++ ["enabled".toList, "gpgcheck".toList, "gpgkey".toList]

theorem plain_settings : ∀ key ∈ settings, plain key := by decide +kernel

/-- A text that white space does not end. -/
def Ended (text : Str) : Prop := ∀ c, text.getLast? = some c → is_whitespace c = false

section Line

variable {key value : Str} {sections : List Section} {last : Section}

theorem exists_first (h : plain key) : ∃ c rest, key = c :: rest ∧ is_whitespace c = false ∧
    c ≠ '#' ∧ c ≠ ';' ∧ c ≠ '[' := by
  rw [plain, Bool.and_eq_true] at h
  cases key with
  | nil => cases h.2
  | cons c rest =>
    have hc := h.2
    simp only [List.head?_cons, Option.any_some, Bool.and_eq_true, Bool.not_eq_true',
      List.contains_eq_mem, decide_eq_false_iff_not, List.mem_cons, List.not_mem_nil, or_false,
      not_or] at hc
    exact ⟨c, rest, rfl, hc⟩

theorem notMem_of_plain (h : plain key) : '=' ∉ key ∧ '\n' ∉ key := by
  rw [plain, Bool.and_eq_true, Bool.and_eq_true, Bool.and_eq_true] at h
  obtain ⟨⟨⟨-, hequals⟩, hnewline⟩, -⟩ := h
  simp only [List.contains_eq_mem, Bool.not_eq_true', decide_eq_false_iff_not] at hequals hnewline
  exact ⟨hequals, hnewline⟩

theorem lower_of_plain (h : plain key) : (trim key).map Char.toLower = key := by
  rw [plain, Bool.and_eq_true, Bool.and_eq_true, Bool.and_eq_true] at h
  exact of_decide_eq_true h.1.1.1

/-- A line with a setting has nothing to trim. -/
theorem trimmed_setting (hkey : plain key) (hvalue : Ended value) :
    Trimmed (key ++ '=' :: value) := by
  obtain ⟨c, rest, rfl, hwhite, -⟩ := exists_first hkey
  refine ⟨fun d hd ↦ ?_, fun d hd ↦ ?_⟩
  · cases hd
    exact hwhite
  · rw [List.getLast?_append, List.getLast?_cons] at hd
    cases hlast : value.getLast? with
    | none =>
      rw [hlast] at hd
      cases hd
      decide
    | some e =>
      rw [hlast] at hd
      cases hd
      exact hvalue e hlast

/-- **A line with a setting** is read as one. -/
theorem parseLine_setting (hkey : plain key) (hvalue : Ended value) :
    parseLine (sections ++ [last]) (key ++ '=' :: value) =
      .ok (sections ++ [{ last with values := last.values ++ [(key, trim value)] }]) := by
  have htrim := trim_eq_self (trimmed_setting hkey hvalue)
  have hsplit := split_once_eq (notMem_of_plain hkey).1 value
  have hlower := lower_of_plain hkey
  obtain ⟨c, rest, rfl, hwhite, hhash, hsemicolon, hbracket⟩ := exists_first hkey
  have hnone : bracketed (c :: rest ++ '=' :: value) = none := by
    rw [List.cons_append, bracketed]
    intro rest' heq
    exact hbracket (List.cons.inj heq).1
  have hcomment : ¬ (c :: rest ++ '=' :: value = [] ∨
      (c :: rest ++ '=' :: value).head? = some '#' ∨
        (c :: rest ++ '=' :: value).head? = some ';') := by
    simp [hhash, hsemicolon]
  have hfront : (c :: rest ++ '=' :: value).head?.any is_whitespace = false := hwhite
  unfold parseLine
  simp only [htrim, if_neg hcomment, hnone, List.getLast?_concat, hfront, Bool.false_eq_true,
    if_false, hsplit, List.dropLast_concat, hlower]

theorem parseLine_nil : parseLine sections [] = .ok sections := by
  rw [parseLine, if_pos (.inl (by rfl))]

/-- The characters of an id are visible, and no brackets. -/
theorem visible_of_valid_id {id : Str} (h : valid_id id) {c : Char} (hc : c ∈ id) :
    0x20 < c.toNat ∧ c.toNat < 0x7f := by
  rw [valid_id, Bool.and_eq_true] at h
  have hchar := List.all_eq_true.1 h.2 c hc
  rw [Bool.or_eq_true] at hchar
  rcases hchar with halphanum | hother
  · exact visible_of_alphanum halphanum
  · have hall : ("._:-".toList.all fun c ↦ 0x20 < c.toNat ∧ c.toNat < 0x7f) = true := by decide
    exact of_decide_eq_true (List.all_eq_true.1 hall c (List.contains_iff_mem.1 hother))

/-- **A line with an id in brackets** begins a section. -/
theorem parseLine_header {id : Str} (h : valid_id id) :
    parseLine sections ('[' :: id ++ [']']) = .ok (sections ++ [⟨id, []⟩]) := by
  have htrim : trim ('[' :: id ++ [']']) = '[' :: id ++ [']'] := by
    refine trim_eq_self ⟨fun c hc ↦ ?_, fun c hc ↦ ?_⟩
    · cases hc
      decide
    · rw [List.getLast?_concat] at hc
      cases hc
      decide
  have hcomment : ¬ ('[' :: id ++ [']'] = [] ∨ ('[' :: id ++ [']']).head? = some '#' ∨
      ('[' :: id ++ [']']).head? = some ';') := by simp
  have hbracketed : bracketed ('[' :: id ++ [']']) = some id := by
    rw [List.cons_append, bracketed, strip_suffix, List.getLast?_concat, if_pos rfl,
      List.dropLast_concat]
  unfold parseLine
  simp only [htrim, if_neg hcomment, hbracketed, h, if_true]

end Line

/-! ## What is written, line by line -/

/-- The paths of the keys, as they are written. -/
def joined (local' : Str → Str) (s : Section) : Str := [' '].intercalate (s.keys.map local')

/-- The settings that are written. -/
def writes (local' : Str → Str) (s : Section) : List (Str × Str) :=
  kept s ++ [("enabled".toList, "1".toList), ("gpgcheck".toList, "1".toList),
    ("gpgkey".toList, joined local' s)]

def setting (pair : Str × Str) : Str := pair.1 ++ '=' :: pair.2

/-- The lines of a section that is written. -/
def linesOf (local' : Str → Str) (s : Section) : List Str :=
  ('[' :: s.id ++ [']']) :: (writes local' s).map setting

theorem renderSection_eq (local' : Str → Str) (s : Section) :
    renderSection local' s = (linesOf local' s).flatMap fun line ↦ line ++ newline := by
  have hfixed : "enabled=1\ngpgcheck=1\ngpgkey=".toList =
      setting ("enabled".toList, "1".toList) ++ newline ++
        (setting ("gpgcheck".toList, "1".toList) ++ newline) ++ "gpgkey".toList ++ ['='] := by
    decide +kernel
  rw [renderSection, hfixed, linesOf, List.flatMap_cons, List.flatMap_map, writes,
    List.flatMap_append]
  simp only [List.append_assoc, setting, List.flatMap_cons, List.flatMap_nil, joined,
    List.cons_append, List.nil_append, List.append_nil]

/-- A line that is read back as it is written. -/
def Single (line : Str) : Prop := '\n' ∉ line ∧ Ended line

theorem lines_flatMap {written : List Str} (h : ∀ line ∈ written, Single line) (rest : Str) :
    lines (written.flatMap (fun line ↦ line ++ newline) ++ rest) = written ++ lines rest := by
  induction written with
  | nil => rfl
  | cons line written ih =>
    obtain ⟨hline, hended⟩ := h line List.mem_cons_self
    have hreturn : line.getLast? ≠ some '\r' := fun hlast ↦ absurd (hended _ hlast) (by decide)
    have ih := ih fun other hother ↦ h other (List.mem_cons_of_mem _ hother)
    rw [List.flatMap_cons, List.append_assoc, List.append_assoc]
    show lines (line ++ '\n' :: (List.flatMap _ written ++ rest)) = _
    rw [lines_cons hline hreturn, ih]
    rfl

/-! ## Sections that were read -/

/-- A section as it is read: its values have no line break and do not end in white space. -/
structure Tidy (s : Section) : Prop where
  id : valid_id s.id
  values : ∀ pair ∈ s.values, Single pair.2

theorem single_trim {text : Str} (h : '\n' ∉ text) : Single (trim text) :=
  ⟨fun hin ↦ h (mem_of_mem_trim hin), (trimmed_trim text).2⟩

theorem ended_append {text more : Str} (h : Ended more) (hne : more ≠ []) :
    Ended (text ++ more) := by
  intro c hc
  rw [List.getLast?_append] at hc
  cases hlast : more.getLast? with
  | none => exact absurd (List.getLast?_eq_none_iff.1 hlast) hne
  | some d =>
    rw [hlast] at hc
    rw [Option.some_or, Option.some_inj] at hc
    exact hc ▸ h d hlast

theorem single_append {value more : Str} (hvalue : Single value) (hmore : Single more)
    (hne : more ≠ []) : Single (value ++ ' ' :: more) := by
  refine ⟨fun hin ↦ ?_, ?_⟩
  · rcases List.mem_append.1 hin with hin | hin
    · exact hvalue.1 hin
    · rcases List.mem_cons.1 hin with heq | hin
      · cases heq
      · exact hmore.1 hin
  · rw [List.append_cons]
    exact ended_append hmore.2 hne

/-- Sections that are tidy but for the last, which another takes the place of. -/
theorem tidy_replace {sections : List Section} {last new : Section}
    (h : ∀ s ∈ sections, Tidy s) (hlast : sections.getLast? = some last) (hid : new.id = last.id)
    (hvalues : ∀ pair ∈ new.values, pair ∈ last.values ∨ Single pair.2) :
    ∀ s ∈ sections.dropLast ++ [new], Tidy s := by
  intro s hs
  rcases List.mem_append.1 hs with hs | hs
  · exact h s (List.dropLast_subset _ hs)
  · obtain ⟨hlastid, hlastvalues⟩ := h last (List.mem_of_getLast? hlast)
    rw [List.mem_singleton.1 hs]
    exact ⟨hid ▸ hlastid, fun pair hpair ↦ (hvalues pair hpair).elim (hlastvalues pair) id⟩

theorem tidy_parseLine {sections sections' : List Section} {line : Str} (hline : '\n' ∉ line)
    (h : ∀ s ∈ sections, Tidy s) (hparse : parseLine sections line = .ok sections') :
    ∀ s ∈ sections', Tidy s := by
  by_cases hblank : trim line = [] ∨ (trim line).head? = some '#' ∨ (trim line).head? = some ';'
  · rw [parseLine, if_pos hblank] at hparse
    cases hparse
    exact h
  have hne : trim line ≠ [] := fun hnil ↦ hblank (.inl hnil)
  cases hbracketed : bracketed (trim line) with
  | some id =>
    simp only [parseLine, if_neg hblank, hbracketed] at hparse
    split at hparse
    · rename_i hvalid
      cases hparse
      intro s hs
      rcases List.mem_append.1 hs with hs | hs
      · exact h s hs
      · rw [List.mem_singleton.1 hs]
        exact ⟨hvalid, fun pair hpair ↦ (by cases hpair)⟩
    · cases hparse
  | none =>
    cases hlast : sections.getLast? with
    | none =>
      simp only [parseLine, if_neg hblank, hbracketed, hlast] at hparse
      cases hparse
    | some last =>
      simp only [parseLine, if_neg hblank, hbracketed, hlast] at hparse
      split at hparse
      · -- The line continues the last value.
        rename_i key value hvalue
        cases hparse
        refine tidy_replace h hlast rfl fun pair hpair ↦ ?_
        rcases List.mem_append.1 hpair with hpair | hpair
        · exact .inl (List.dropLast_subset _ hpair)
        · rw [List.mem_singleton.1 hpair]
          split at hvalue
          · have hmem := List.mem_of_getLast? hvalue
            have hold := (h last (List.mem_of_getLast? hlast)).values _ hmem
            exact .inr (single_append hold (single_trim hline) hne)
          · cases hvalue
      · split at hparse
        · cases hparse
        · rename_i key value hsplit
          cases hparse
          refine tidy_replace h hlast rfl fun pair hpair ↦ ?_
          rcases List.mem_append.1 hpair with hpair | hpair
          · exact .inl hpair
          · rw [List.mem_singleton.1 hpair]
            refine .inr (single_trim fun hin ↦ hline (mem_of_mem_trim ?_))
            exact mem_of_split_once hsplit hin

/-- **What every step that succeeds keeps**, a loop that succeeds keeps. -/
theorem foldlM_invariant {α β ε : Type*} {step : β → α → Except ε β} {P : β → Prop} {l : List α}
    (hstep : ∀ a ∈ l, ∀ b b', P b → step b a = .ok b' → P b') {b b' : β} (hb : P b)
    (h : l.foldlM step b = .ok b') : P b' := by
  induction l generalizing b with
  | nil =>
    cases h
    exact hb
  | cons a l ih =>
    rw [List.foldlM_cons] at h
    cases ha : step b a with
    | error e =>
      rw [ha] at h
      cases h
    | ok c =>
      rw [ha] at h
      exact ih (fun x hx ↦ hstep x (List.mem_cons_of_mem a hx))
        (hstep a List.mem_cons_self b c hb ha) h

/-- **The sections that are read** are tidy. -/
theorem tidy_parse {text : Str} {sections : List Section} (h : parse text = .ok sections) :
    ∀ s ∈ sections, Tidy s := by
  rw [parse] at h
  split at h
  · cases h
  · rename_i read hread
    split at h
    · cases h
    · cases h
      refine foldlM_invariant (P := fun sections ↦ ∀ s ∈ sections, Tidy s) ?_ ?_ hread
      · intro line hline sections sections' hsections hparse
        exact tidy_parseLine (newline_of_mem_lines hline) hsections hparse
      · intro s hs
        cases hs

/-! ## What was written, read again -/

/-- A section as it is read back: the values that were kept, and signatures required. -/
def written (local' : Str → Str) (s : Section) : Section :=
  ⟨s.id, (writes local' s).map fun pair ↦ (pair.1, trim pair.2)⟩

section Render

variable {local' : Str → Str} {s : Section}

/-- What a section has to be like for its lines to be read back. -/
structure Readable (local' : Str → Str) (s : Section) : Prop where
  tidy : Tidy s
  joined : Single (joined local' s)

theorem Readable.writes (h : Readable local' s) {pair : Str × Str} (hpair : pair ∈ writes local' s) :
    plain pair.1 ∧ Single pair.2 := by
  rcases List.mem_append.1 hpair with hpair | hpair
  · obtain ⟨hmem, hkept⟩ := List.mem_filter.1 hpair
    refine ⟨plain_settings _ (List.mem_append_left _ (List.contains_iff_mem.1 hkept)), ?_⟩
    exact h.tidy.values pair hmem
  · have hone : Single "1".toList := by
      refine ⟨by decide, fun c hc ↦ ?_⟩
      cases hc
      decide
    simp only [List.mem_cons, List.not_mem_nil, or_false] at hpair
    rcases hpair with rfl | rfl | rfl
    · exact ⟨plain_settings "enabled".toList (by decide), hone⟩
    · exact ⟨plain_settings "gpgcheck".toList (by decide), hone⟩
    · exact ⟨plain_settings "gpgkey".toList (by decide), h.joined⟩

theorem Readable.lines (h : Readable local' s) : ∀ line ∈ linesOf local' s, Single line := by
  intro line hline
  rcases List.mem_cons.1 hline with rfl | hline
  · refine ⟨fun hin ↦ ?_, fun c hc ↦ ?_⟩
    · rcases List.mem_append.1 hin with hin | hin
      · rcases List.mem_cons.1 hin with heq | hin
        · cases heq
        · exact absurd (visible_of_valid_id h.tidy.id hin).1 (by decide)
      · cases List.mem_singleton.1 hin
    · rw [List.getLast?_concat] at hc
      cases hc
      decide
  · obtain ⟨pair, hpair, rfl⟩ := List.mem_map.1 hline
    obtain ⟨hplain, hsingle⟩ := h.writes hpair
    refine ⟨fun hin ↦ ?_, (trimmed_setting hplain hsingle.2).2⟩
    rcases List.mem_append.1 hin with hin | hin
    · exact (notMem_of_plain hplain).2 hin
    · rcases List.mem_cons.1 hin with heq | hin
      · cases heq
      · exact hsingle.1 hin

theorem foldlM_settings {pairs : List (Str × Str)}
    (h : ∀ pair ∈ pairs, plain pair.1 ∧ Single pair.2) (sections : List Section) (id : Str)
    (values : List (Str × Str)) :
    (pairs.map setting).foldlM parseLine (sections ++ [⟨id, values⟩]) =
      .ok (sections ++ [⟨id, values ++ pairs.map fun pair ↦ (pair.1, trim pair.2)⟩]) := by
  induction pairs generalizing values with
  | nil => rw [List.map_nil, List.map_nil, List.append_nil]; rfl
  | cons pair pairs ih =>
    obtain ⟨hplain, hsingle⟩ := h pair List.mem_cons_self
    rw [List.map_cons, List.foldlM_cons, setting, parseLine_setting hplain hsingle.2]
    show (pairs.map setting).foldlM parseLine _ = _
    rw [ih (fun other hother ↦ h other (List.mem_cons_of_mem _ hother)), List.append_assoc]
    rfl

/-- **The lines of a section** are read as the section they were written of. -/
theorem foldlM_linesOf (h : Readable local' s) (sections : List Section) :
    (linesOf local' s).foldlM parseLine sections = .ok (sections ++ [written local' s]) := by
  rw [linesOf, List.foldlM_cons, parseLine_header h.tidy.id]
  show ((Packages.writes local' s).map setting).foldlM parseLine _ = _
  rw [foldlM_settings (fun _ ↦ h.writes)]
  rfl

theorem lines_render {first : Section} {rest : List Section}
    (h : ∀ s ∈ first :: rest, Readable local' s) :
    lines (render (first :: rest) local') =
      linesOf local' first ++ rest.flatMap fun s ↦ [] :: linesOf local' s := by
  induction rest generalizing first with
  | nil =>
    have hlines := lines_flatMap (h first List.mem_cons_self).lines []
    rw [List.append_nil] at hlines
    show lines (newline.intercalate [renderSection local' first]) = _
    rw [List.intercalate_singleton, renderSection_eq, hlines]
    rfl
  | cons second rest ih =>
    have ih := ih fun s hs ↦ h s (List.mem_cons_of_mem first hs)
    have hblank (text : Str) : lines (newline ++ text) = [] :: lines text :=
      lines_cons List.not_mem_nil (by decide) text
    show lines (newline.intercalate (renderSection local' first ::
      renderSection local' second :: rest.map (renderSection local'))) = _
    rw [List.intercalate_cons_cons, List.append_assoc, renderSection_eq,
      lines_flatMap (h first List.mem_cons_self).lines, hblank]
    show linesOf local' first ++ [] :: lines (render (second :: rest) local') = _
    rw [ih]
    rfl

/-- **What is written is read back**, section by section. -/
theorem parse_render {sections : List Section} (hne : sections ≠ [])
    (h : ∀ s ∈ sections, Readable local' s) :
    parse (render sections local') = .ok (sections.map (written local')) := by
  have hrest : ∀ (rest read : List Section), (∀ s ∈ rest, Readable local' s) →
      (rest.flatMap fun s ↦ [] :: linesOf local' s).foldlM parseLine read =
        .ok (read ++ rest.map (written local')) := by
    intro rest
    induction rest with
    | nil => intro read _; rw [List.map_nil, List.append_nil]; rfl
    | cons s rest ih =>
      intro read hs
      rw [List.flatMap_cons, List.foldlM_append, List.foldlM_cons, parseLine_nil]
      show ((linesOf local' s).foldlM parseLine read >>= _) = _
      rw [foldlM_linesOf (hs s List.mem_cons_self)]
      show (rest.flatMap fun s ↦ [] :: linesOf local' s).foldlM parseLine _ = _
      rw [ih _ fun s' hs' ↦ hs s' (List.mem_cons_of_mem s hs'), List.append_assoc]
      rfl
  cases sections with
  | nil => exact absurd rfl hne
  | cons first rest =>
    have hread : (lines (render (first :: rest) local')).foldlM parseLine [] =
        .ok ((first :: rest).map (written local')) := by
      rw [lines_render h, List.foldlM_append, foldlM_linesOf (h first List.mem_cons_self)]
      exact hrest rest _ fun s hs ↦ h s (List.mem_cons_of_mem first hs)
    rw [parse, hread]
    rfl

/-! ## Settings that are looked up in what was written -/

theorem get_written {key : Str} (hkey : key ∈ KEPT) :
    (written local' s).get key = (s.get key).map trim := by
  have hsame : (kept s).find? (fun pair ↦ pair.1 = key) = s.values.find? fun pair ↦ pair.1 = key := by
    refine First.find?_filter_of_imp (fun pair hpair ↦ ?_) s.values
    rw [of_decide_eq_true hpair]
    exact List.contains_iff_mem.2 hkey
  have hnone : [("enabled".toList, "1".toList), ("gpgcheck".toList, "1".toList),
      ("gpgkey".toList, joined local' s)].find? (fun pair ↦ pair.1 = key) = none := by
    rw [List.find?_eq_none]
    intro pair hpair hfound
    have hnot : ∀ other ∈ ["enabled".toList, "gpgcheck".toList, "gpgkey".toList], other ∉ KEPT := by
      decide +kernel
    refine hnot pair.1 ?_ (of_decide_eq_true hfound ▸ hkey)
    simp only [List.mem_cons, List.not_mem_nil, or_false] at hpair ⊢
    rcases hpair with rfl | rfl | rfl
    · exact .inl rfl
    · exact .inr (.inl rfl)
    · exact .inr (.inr rfl)
  rw [Section.get, written, List.find?_map, Section.get, ← hsame]
  show Option.map Prod.snd (Option.map _ ((writes local' s).find? fun pair ↦ pair.1 = key)) = _
  rw [writes, List.find?_append, hnone, Option.or_none, Option.map_map, Option.map_map]
  rfl

/-- A setting that is not kept is the one that is written for all. -/
theorem get_written_fixed {key : Str} (hkey : key ∉ KEPT) :
    (written local' s).get key =
      (([("enabled".toList, "1".toList), ("gpgcheck".toList, "1".toList),
        ("gpgkey".toList, joined local' s)].find? fun pair ↦ pair.1 = key).map Prod.snd).map trim := by
  have hnone : (kept s).find? (fun pair ↦ pair.1 = key) = none := by
    refine First.find?_filter_of_disjoint (fun pair hpair hin ↦ hkey ?_) s.values
    rw [← of_decide_eq_true hpair]
    exact List.contains_iff_mem.1 hin
  rw [Section.get, written, List.find?_map]
  show Option.map Prod.snd (Option.map _ ((writes local' s).find? fun pair ↦ pair.1 = key)) = _
  rw [writes, List.find?_append, hnone, Option.none_or, Option.map_map, Option.map_map]
  rfl

theorem get_written_enabled : (written local' s).get "enabled".toList = some "1".toList := by
  rw [get_written_fixed (by decide +kernel)]
  rfl

theorem get_written_gpgcheck : (written local' s).get "gpgcheck".toList = some "1".toList := by
  rw [get_written_fixed (by decide +kernel)]
  rfl

theorem words_trim (value : Str) : words (trim value) = words value :=
  fields_trim (fun _ ↦ separates_of_whitespace) value

theorem addresses_written : addresses (written local' s) = addresses s := by
  have hget : ADDRESSES.filterMap (written local' s).get =
      (ADDRESSES.filterMap s.get).map trim := by
    rw [List.map_filterMap]
    refine List.filterMap_congr fun key hkey ↦ get_written ?_
    have hall : ∀ key ∈ ADDRESSES, key ∈ KEPT := by decide +kernel
    exact hall key hkey
  rw [addresses, hget, List.flatMap_map, addresses]
  simp only [words_trim]

/-- One word. -/
def Word (word : Str) : Prop := word ≠ [] ∧ ∀ c ∈ word, separates c = false

theorem Word.single {word : Str} (h : Word word) : Single word := by
  have hwhite (c : Char) (hc : c ∈ word) : is_whitespace c = false := by
    have := h.2 c hc
    rw [separates, Bool.or_eq_false_iff] at this
    exact this.1
  refine ⟨fun hin ↦ ?_, fun c hc ↦ hwhite c (List.mem_of_getLast? hc)⟩
  have := hwhite _ hin
  revert this
  decide

theorem single_joined (hne : s.keys ≠ []) (hwords : ∀ key ∈ s.keys, Word (local' key)) :
    Single (joined local' s) := by
  have hall : ∀ words : List Str, words ≠ [] → (∀ word ∈ words, Word word) →
      [' '].intercalate words ≠ [] ∧ Single ([' '].intercalate words) := by
    intro words
    induction words with
    | nil => exact fun hne ↦ absurd rfl hne
    | cons word words ih =>
      intro _ hwords
      have hword := hwords word List.mem_cons_self
      cases words with
      | nil =>
        rw [List.intercalate_singleton]
        exact ⟨hword.1, hword.single⟩
      | cons next words =>
        obtain ⟨hrest, hsingle⟩ := ih (List.cons_ne_nil next words) fun other hother ↦
          hwords other (List.mem_cons_of_mem word hother)
        rw [List.intercalate_cons_cons, List.append_assoc]
        exact ⟨by simp, single_append hword.single hsingle hrest⟩
  refine (hall _ (by simpa using hne) fun word hword ↦ ?_).2
  obtain ⟨key, hkey, rfl⟩ := List.mem_map.1 hword
  exact hwords key hkey

theorem words_joined (hwords : ∀ key ∈ s.keys, Word (local' key)) :
    words (joined local' s) = s.keys.map local' := by
  refine fields_join (by decide) fun word hword ↦ ?_
  obtain ⟨key, hkey, rfl⟩ := List.mem_map.1 hword
  exact hwords key hkey

theorem keys_written (hwords : ∀ key ∈ s.keys, Word (local' key)) :
    (written local' s).keys = s.keys.map local' := by
  rw [Section.keys, get_written_fixed (by decide +kernel)]
  show words (trim (joined local' s)) = _
  rw [words_trim, words_joined hwords]

end Render

/-- What a section that was accepted has. -/
structure Accepted (s : Section) : Prop where
  signed : (s.get "gpgcheck".toList).any truthy
  keys : s.keys ≠ []
  addresses : addresses s ≠ []
  secure : ∀ address ∈ Packages.addresses s, secure address

theorem refusal_eq_none {s : Section} : refusal s = none ↔ Accepted s := by
  rw [refusal]
  constructor
  · intro h
    split at h
    · cases h
    rename_i hsigned
    split at h
    · cases h
    rename_i hkeys
    split at h
    · cases h
    rename_i haddresses
    refine ⟨not_not.1 hsigned, hkeys, haddresses, fun address haddress ↦ ?_⟩
    have hnone := List.find?_eq_none.1 (Option.map_eq_none_iff.1 h) address haddress
    simpa using hnone
  · rintro ⟨hsigned, hkeys, haddresses, hsecure⟩
    rw [if_neg (not_not.2 hsigned), if_neg hkeys, if_neg haddresses, Option.map_eq_none_iff,
      List.find?_eq_none]
    intro address haddress
    simp [hsecure address haddress]

theorem accepted_of_enabled {sections accepted : List Section} (h : enabled sections = .ok accepted) :
    accepted ≠ [] ∧ ∀ s ∈ accepted, s ∈ sections ∧ Accepted s := by
  rw [enabled] at h
  split at h
  · cases h
  rename_i hne
  split at h
  · cases h
  rename_i hnone
  cases h
  refine ⟨hne, fun s hs ↦ ⟨(List.mem_filter.1 hs).1, refusal_eq_none.1 ?_⟩⟩
  exact List.findSome?_eq_none_iff.1 hnone s hs

/-- **What is written is accepted again.** -/
theorem enabled_written {local' : Str → Str} {sections : List Section} (hne : sections ≠ [])
    (h : ∀ s ∈ sections, Accepted s ∧ ∀ key ∈ s.keys, Word (local' key)) :
    enabled (sections.map (written local')) = .ok (sections.map (written local')) := by
  have hon : (sections.map (written local')).filter Section.enabled =
      sections.map (written local') := by
    rw [List.filter_eq_self]
    intro w hw
    obtain ⟨s, -, rfl⟩ := List.mem_map.1 hw
    rw [Section.enabled, get_written_enabled]
    decide +kernel
  have haccepted : (sections.map (written local')).findSome? refusal = none := by
    rw [List.findSome?_eq_none_iff]
    intro w hw
    obtain ⟨s, hs, rfl⟩ := List.mem_map.1 hw
    obtain ⟨hs, hwords⟩ := h s hs
    refine refusal_eq_none.2 ⟨?_, ?_, ?_, ?_⟩
    · rw [get_written_gpgcheck]
      decide +kernel
    · rw [keys_written hwords]
      simpa using hs.keys
    · rw [addresses_written]
      exact hs.addresses
    · rw [addresses_written]
      exact hs.secure
  rw [enabled]
  simp only [hon, haccepted, List.map_eq_nil_iff, hne, if_false]

/-! ## Files that were checked -/

section Check

variable {read : Str → Except String (List Key)} {file text : Str} {keys : List (Str × Str)}
variable {checked : Checked}

/-- **What a check went through.** -/
theorem check_eq_ok (h : check read file text keys = .ok checked) :
    valid_file file ∧ (∃ sections, parse text = .ok sections ∧
      enabled sections = .ok checked.sections) ∧
      (checked.sections.flatMap Section.keys).foldlM (want keys) [] = .ok checked.keys ∧
      checked.keys.foldlM (gather read) [] = .ok checked.fingerprints := by
  rw [check] at h
  by_cases hfile : valid_file file
  · rw [if_neg (not_not.2 hfile)] at h
    obtain ⟨-, -, h⟩ := Results.bind_eq_ok h
    obtain ⟨sections, hparse, h⟩ := Results.bind_eq_ok h
    obtain ⟨accepted, henabled, h⟩ := Results.bind_eq_ok h
    obtain ⟨wanted, hwanted, h⟩ := Results.bind_eq_ok h
    obtain ⟨fingerprints, hfingerprints, h⟩ := Results.bind_eq_ok h
    cases h
    exact ⟨hfile, ⟨sections, hparse, henabled⟩, hwanted, hfingerprints⟩
  · rw [if_pos hfile] at h
    cases h

/-- Every key that was named is wanted, and is the one that was given for its address. -/
theorem wanted_spec {addresses : List Str} {wanted : List (Str × Str)}
    (h : addresses.foldlM (want keys) [] = .ok wanted) :
    (∀ address ∈ addresses, ∃ armored, (address, armored) ∈ wanted) ∧
      ∀ known ∈ wanted, keys.lookup known.1 = some known.2 := by
  have hgeneral : ∀ (addresses : List Str) (before wanted : List (Str × Str)),
      (∀ known ∈ before, keys.lookup known.1 = some known.2) →
      addresses.foldlM (want keys) before = .ok wanted →
      (∀ known ∈ before, known ∈ wanted) ∧
        (∀ address ∈ addresses, ∃ armored, (address, armored) ∈ wanted) ∧
        ∀ known ∈ wanted, keys.lookup known.1 = some known.2 := by
    intro addresses
    induction addresses with
    | nil =>
      intro before wanted hbefore h
      cases h
      exact ⟨fun _ ↦ id, fun _ h ↦ (by cases h), hbefore⟩
    | cons address addresses ih =>
      intro before wanted hbefore h
      rw [List.foldlM_cons] at h
      obtain ⟨after, hwant, h⟩ := Results.bind_eq_ok h
      have hstep : (∀ known ∈ before, known ∈ after) ∧
          (∃ armored, (address, armored) ∈ after) ∧
            ∀ known ∈ after, keys.lookup known.1 = some known.2 := by
        rw [want] at hwant
        split at hwant
        · rename_i hany
          cases hwant
          obtain ⟨⟨known, armored⟩, hmem, heq⟩ := List.any_eq_true.1 hany
          have heq : known = address := of_decide_eq_true heq
          exact ⟨fun _ ↦ id, ⟨armored, heq ▸ hmem⟩, hbefore⟩
        · split at hwant
          · cases hwant
          · rename_i armored hlookup
            cases hwant
            refine ⟨fun known hknown ↦ List.mem_append_left _ hknown,
              ⟨armored, List.mem_append_right _ (List.mem_singleton_self _)⟩, fun known hknown ↦ ?_⟩
            rcases List.mem_append.1 hknown with hknown | hknown
            · exact hbefore known hknown
            · rw [List.mem_singleton.1 hknown]
              exact hlookup
      obtain ⟨hmore, hnamed, hlookup⟩ := ih after wanted hstep.2.2 h
      refine ⟨fun known hknown ↦ hmore known (hstep.1 known hknown), fun other hother ↦ ?_, hlookup⟩
      rcases List.mem_cons.1 hother with rfl | hother
      · obtain ⟨armored, harmored⟩ := hstep.2.1
        exact ⟨armored, hmore _ harmored⟩
      · exact hnamed other hother
  exact (hgeneral addresses [] wanted (fun _ h ↦ (by cases h)) h).2

/-- Every key that is wanted was read. -/
theorem read_of_gather {wanted : List (Str × Str)} {fingerprints found : List Key}
    (h : wanted.foldlM (gather read) fingerprints = .ok found) :
    ∀ known ∈ wanted, ∃ listed, read known.2 = .ok listed := by
  induction wanted generalizing fingerprints with
  | nil => exact fun _ h ↦ (by cases h)
  | cons known wanted ih =>
    rw [List.foldlM_cons] at h
    obtain ⟨more, hgather, h⟩ := Results.bind_eq_ok h
    intro other hother
    rcases List.mem_cons.1 hother with rfl | hother
    · rw [gather] at hgather
      cases hread : read other.2 with
      | error message =>
        rw [hread] at hgather
        cases hgather
      | ok listed => exact ⟨listed, rfl⟩
    · exact ih h other hother

theorem separates_of_all {text : Str} (h : (text.all fun c ↦ !separates c) = true) {c : Char}
    (hc : c ∈ text) : separates c = false := by
  simpa using List.all_eq_true.1 h c hc

theorem separates_of_alphanum {c : Char} (h : c.isAlphanum) : separates c = false := by
  obtain ⟨hlow, hhigh⟩ := visible_of_alphanum h
  refine separates_of_visible hlow hhigh ?_
  rintro rfl
  revert h
  decide

theorem separates_of_digit {c : Char} (h : c.isDigit) : separates c = false := by
  refine separates_of_alphanum ?_
  show (c.isAlpha || c.isDigit) = true
  rw [h, Bool.or_true]

theorem separates_of_valid_file (hfile : valid_file file) {c : Char} (hc : c ∈ file) :
    separates c = false := by
  rw [valid_file, Bool.and_eq_true] at hfile
  have hchar := List.all_eq_true.1 hfile.2 c hc
  rw [Bool.or_eq_true, Bool.or_eq_true] at hchar
  rcases hchar with (hlower | hdigit) | hother
  · refine separates_of_alphanum ?_
    show ((c.isUpper || c.isLower) || c.isDigit) = true
    rw [hlower, Bool.or_true, Bool.true_or]
  · exact separates_of_digit hdigit
  · exact separates_of_all (by decide : ("._-".toList.all fun c ↦ !separates c) = true)
      (List.contains_iff_mem.1 hother)

theorem separates_of_number {n : ℕ} {c : Char} (hc : c ∈ (toString n).toList) :
    separates c = false := by
  rw [Nat.toString_eq_repr, Nat.toList_repr] at hc
  have hdigit := Nat.isDigit_of_mem_toDigits (by decide) (by decide) hc
  exact separates_of_digit hdigit

/-- The path of a key is one word. -/
theorem word_localKey (hfile : valid_file file) (checked : Checked) (address : Str) :
    Word (localKey file checked address) := by
  have hscheme : ("file://".toList.all fun c ↦ !separates c) = true := by decide
  have hfolder : (KEYS.all fun c ↦ !separates c) = true := by decide +kernel
  have hsuffix : (".asc".toList.all fun c ↦ !separates c) = true := by decide
  unfold localKey key_name
  refine ⟨fun hnil ↦ absurd (List.append_eq_nil_iff.1 hnil).2 (List.cons_ne_nil _ _), ?_⟩
  intro c hc
  rw [List.mem_append, List.mem_append, List.mem_cons, List.mem_append, List.mem_append,
    List.mem_cons] at hc
  rcases hc with (hc | hc) | rfl | (hc | rfl | hc) | hc
  · exact separates_of_all hscheme hc
  · exact separates_of_all hfolder hc
  · decide
  · exact separates_of_valid_file hfile hc
  · decide
  · exact separates_of_number hc
  · exact separates_of_all hsuffix hc

/-- **The path an address gets** is where its key is stored. -/
theorem localKey_spec {address : Str} (h : ∃ armored, (address, armored) ∈ checked.keys) :
    ∃ armored place, (address, armored) ∈ checked.keys ∧
      localKey file checked address = "file://".toList ++ place ∧
        (place, armored) ∈ store file checked := by
  obtain ⟨armored, hmem⟩ := h
  cases hfind : checked.keys.findIdx? fun known ↦ known.1 = address with
  | none =>
    have := List.findIdx?_eq_none_iff.1 hfind _ hmem
    exact absurd rfl (of_decide_eq_false this)
  | some i =>
    obtain ⟨⟨⟨known, armored'⟩, hat, heq⟩, -⟩ := First.findIdx?_eq_some_iff_at.1 hfind
    have heq : known = address := of_decide_eq_true heq
    subst heq
    refine ⟨armored', KEYS ++ '/' :: key_name file (i + 1), List.mem_of_getElem? hat, ?_, ?_⟩
    · unfold localKey
      simp only [hfind, Option.getD_some, List.append_assoc]
    · rw [store, List.mem_append, List.mem_map]
      exact .inl ⟨((known, armored'), i), List.mem_zipIdx_iff_getElem?.2 hat, rfl⟩

/-! ## Is what is written safe? -/

/-- **A section is safe as it is written**: what is read back has the section's id and the values
that were kept, every address is secure, signatures are required, and the keys are those that the
section names, which were given and read. -/
structure Safe (read : Str → Except String (List Key)) (file : Str) (keys : List (Str × Str))
    (checked : Checked) (s w : Section) : Prop where
  id : w.id = s.id
  secure : ∀ pair ∈ w.values, pair.1 ∈ ADDRESSES → ∀ address ∈ words pair.2, secure address
  gpgcheck : w.get "gpgcheck".toList = some "1".toList
  signed : ∀ pair ∈ w.values, pair.1 = "gpgcheck".toList → pair.2 = "1".toList
  keys : ∀ pair ∈ w.values, pair.1 = "gpgkey".toList → ∀ word ∈ words pair.2,
    ∃ address armored place, address ∈ s.keys ∧ keys.lookup address = some armored ∧
      (∃ listed, read armored = .ok listed) ∧ word = "file://".toList ++ place ∧
        (place, armored) ∈ store file checked
  kept : kept w = kept s

/-- All the file's sections are accepted when they are read back, and are safe. -/
def SafeAsWritten (read : Str → Except String (List Key)) (file : Str) (keys : List (Str × Str))
    (checked : Checked) : Prop :=
  ∃ again, parse (render checked.sections (localKey file checked)) = .ok again ∧
    enabled again = .ok again ∧
    List.Forall₂ (Safe read file keys checked) checked.sections again

/-- Every value for an address is secure, not only the first, and no value that is kept has white
space in front: it begins on its own line. -/
structure Careful (s : Section) : Prop where
  secure : ∀ pair ∈ s.values, pair.1 ∈ ADDRESSES → ∀ address ∈ words pair.2, Packages.secure address
  begun : ∀ pair ∈ kept s, trim pair.2 = pair.2

/-- What is kept of a section that was read back. -/
theorem kept_written {local' : Str → Str} {s : Section} :
    kept (written local' s) = (kept s).map fun pair ↦ (pair.1, trim pair.2) := by
  have hfixed : ([("enabled".toList, "1".toList), ("gpgcheck".toList, "1".toList),
      ("gpgkey".toList, joined local' s)].map fun pair ↦ (pair.1, trim pair.2)).filter
        (fun pair ↦ KEPT.contains pair.1) = [] := by
    rw [List.filter_eq_nil_iff]
    intro pair hpair
    have hnot : ∀ key ∈ ["enabled".toList, "gpgcheck".toList, "gpgkey".toList],
        ¬ KEPT.contains key := by decide +kernel
    refine hnot pair.1 ?_
    simp only [List.map_cons, List.map_nil, List.mem_cons, List.not_mem_nil, or_false] at hpair ⊢
    rcases hpair with rfl | rfl | rfl
    · exact .inl rfl
    · exact .inr (.inl rfl)
    · exact .inr (.inr rfl)
  rw [kept, written, writes, List.map_append, List.filter_append, hfixed, List.append_nil,
    List.filter_map, kept]
  congr 1
  exact List.filter_filter.trans (by simp only [Function.comp_apply, Bool.and_self])

theorem mem_written {local' : Str → Str} {s : Section} {pair : Str × Str}
    (h : pair ∈ (written local' s).values) :
    (∃ old ∈ kept s, pair = (old.1, trim old.2)) ∨ pair = ("enabled".toList, "1".toList) ∨
      pair = ("gpgcheck".toList, "1".toList) ∨ pair = ("gpgkey".toList, trim (joined local' s)) := by
  obtain ⟨old, hold, rfl⟩ := List.mem_map.1 h
  rcases List.mem_append.1 hold with hold | hold
  · exact .inl ⟨old, hold, rfl⟩
  · simp only [List.mem_cons, List.not_mem_nil, or_false] at hold
    rcases hold with rfl | rfl | rfl
    · exact .inr (.inl rfl)
    · exact .inr (.inr (.inl rfl))
    · exact .inr (.inr (.inr rfl))

/-- Keys that are kept are no keys that are written for all. -/
theorem ne_of_kept {s : Section} {pair : Str × Str} (h : pair ∈ kept s) :
    pair.1 ≠ "gpgcheck".toList ∧ pair.1 ≠ "gpgkey".toList := by
  have hkept := List.contains_iff_mem.1 (List.mem_filter.1 h).2
  have hnot : "gpgcheck".toList ∉ KEPT ∧ "gpgkey".toList ∉ KEPT := by decide +kernel
  exact ⟨fun heq ↦ hnot.1 (heq ▸ hkept), fun heq ↦ hnot.2 (heq ▸ hkept)⟩

/-- **A section is safe as it is written exactly when it is careful.** -/
theorem safe_written_iff {s : Section} {local' : Str → Str}
    (hwords : ∀ key ∈ s.keys, Word (local' key))
    (hkeys : ∀ address ∈ s.keys, ∃ armored place, keys.lookup address = some armored ∧
      (∃ listed, read armored = .ok listed) ∧ local' address = "file://".toList ++ place ∧
        (place, armored) ∈ store file checked) :
    Safe read file keys checked s (written local' s) ↔ Careful s := by
  have haddress : ∀ key ∈ ADDRESSES, key ∈ KEPT ∧ key ≠ "enabled".toList ∧
      key ≠ "gpgcheck".toList ∧ key ≠ "gpgkey".toList := by decide +kernel
  constructor
  · intro h
    refine ⟨fun pair hpair hkey address hin ↦ ?_, fun pair hpair ↦ ?_⟩
    · have hkept : pair ∈ kept s :=
        List.mem_filter.2 ⟨hpair, List.contains_iff_mem.2 (haddress _ hkey).1⟩
      refine h.secure (pair.1, trim pair.2) ?_ hkey address (by rwa [words_trim])
      exact List.mem_map_of_mem (List.mem_append_left _ hkept)
    · have hkept := h.kept
      rw [kept_written] at hkept
      have hsame := List.map_eq_map_iff.1 (hkept.trans (List.map_id _).symm) pair hpair
      exact (Prod.mk.inj hsame).2
  · rintro ⟨hsecure, hbegun⟩
    refine ⟨rfl, fun pair hpair hkey address hin ↦ ?_, get_written_gpgcheck,
      fun pair hpair hkey ↦ ?_, fun pair hpair hkey word hword ↦ ?_, ?_⟩
    · rcases mem_written hpair with ⟨old, hold, rfl⟩ | rfl | rfl | rfl
      · rw [words_trim] at hin
        exact hsecure old (List.mem_filter.1 hold).1 hkey address hin
      · exact absurd rfl (haddress _ hkey).2.1
      · exact absurd rfl (haddress _ hkey).2.2.1
      · exact absurd rfl (haddress _ hkey).2.2.2
    · rcases mem_written hpair with ⟨old, hold, rfl⟩ | rfl | rfl | rfl
      · exact absurd hkey (ne_of_kept hold).1
      · exact absurd hkey (by decide)
      · rfl
      · exact absurd (show "gpgkey".toList = "gpgcheck".toList from hkey) (by decide)
    · rcases mem_written hpair with ⟨old, hold, rfl⟩ | rfl | rfl | rfl
      · exact absurd hkey (ne_of_kept hold).2
      · exact absurd hkey (by decide)
      · exact absurd hkey (by decide)
      · rw [words_trim, words_joined hwords] at hword
        obtain ⟨address, hmem, rfl⟩ := List.mem_map.1 hword
        obtain ⟨armored, place, hlookup, hread, hplace, hstore⟩ := hkeys address hmem
        exact ⟨address, armored, place, hmem, hlookup, hread, hplace, hstore⟩
    · rw [kept_written]
      refine (List.map_congr_left fun pair hpair ↦ ?_).trans (List.map_id _)
      exact Prod.ext rfl (hbegun pair hpair)

/-- **Exactly when a repository file is safe as it is written**, of those that are accepted. -/
theorem safeAsWritten_iff (h : check read file text keys = .ok checked) :
    SafeAsWritten read file keys checked ↔ ∀ s ∈ checked.sections, Careful s := by
  obtain ⟨hfile, ⟨sections, hparse, henabled⟩, hwant, hgather⟩ := check_eq_ok h
  obtain ⟨hne, haccepted⟩ := accepted_of_enabled henabled
  obtain ⟨hnamed, hlookup⟩ := wanted_spec hwant
  have hwords (s : Section) : ∀ key ∈ s.keys, Word (localKey file checked key) :=
    fun key _ ↦ word_localKey hfile checked key
  have hreadable : ∀ s ∈ checked.sections, Readable (localKey file checked) s := by
    intro s hs
    obtain ⟨hmem, hacc⟩ := haccepted s hs
    exact ⟨tidy_parse hparse s hmem, single_joined hacc.keys (hwords s)⟩
  have hsafe : ∀ s ∈ checked.sections,
      (Safe read file keys checked s (written (localKey file checked) s) ↔ Careful s) := by
    intro s hs
    refine safe_written_iff (hwords s) fun address haddress ↦ ?_
    obtain ⟨armored, place, hmem, hplace, hstore⟩ :=
      localKey_spec (hnamed address (List.mem_flatMap.2 ⟨s, hs, haddress⟩))
    exact ⟨armored, place, hlookup _ hmem, read_of_gather hgather _ hmem, hplace, hstore⟩
  have hagain := enabled_written hne fun s hs ↦ ⟨(haccepted s hs).2, hwords s⟩
  constructor
  · rintro ⟨again, hread, -, hall⟩
    rw [parse_render hne hreadable] at hread
    cases hread
    rw [List.forall₂_map_right_iff, List.forall₂_same] at hall
    exact fun s hs ↦ (hsafe s hs).1 (hall s hs)
  · intro hcareful
    refine ⟨_, parse_render hne hreadable, hagain, ?_⟩
    rw [List.forall₂_map_right_iff, List.forall₂_same]
    exact fun s hs ↦ (hsafe s hs).2 (hcareful s hs)

end Check

/-! ## A repeated setting -/

/-- A reader that finds one key in any block. -/
def readOne : Str → Except String (List Key) := fun _ ↦ .ok [⟨"3FEF9748", "Packages"⟩]

def someKeys : List (Str × Str) := [("https://example.com/key".toList, "armored".toList)]

def plainFile : Str :=
  "[x]\nname=X\nbaseurl=https://example.com/a,\n  https://example.com/b\ngpgcheck=1\n".toList ++
    "gpgkey=https://example.com/key\n".toList

def plainChecked : Checked :=
  ⟨[⟨"x".toList, [("name".toList, "X".toList),
      ("baseurl".toList, "https://example.com/a, https://example.com/b".toList),
      ("gpgcheck".toList, "1".toList), ("gpgkey".toList, "https://example.com/key".toList)]⟩],
    someKeys, [⟨"3FEF9748", "Packages"⟩]⟩

theorem safeAsWritten_plainFile :
    SafeAsWritten readOne "x".toList someKeys plainChecked ↔
      ∀ s ∈ plainChecked.sections, Careful s := by
  have hcheck : check readOne "x".toList plainFile someKeys = .ok plainChecked := by decide +kernel
  exact safeAsWritten_iff hcheck

/-- The first address is secure, the second is not. -/
def repeatedFile : Str :=
  "[x]\nbaseurl=https://example.com/a\nbaseurl=http://example.com/b\ngpgcheck=1\n".toList ++
    "gpgkey=https://example.com/key\n".toList

def repeatedChecked : Checked :=
  ⟨[⟨"x".toList, [("baseurl".toList, "https://example.com/a".toList),
      ("baseurl".toList, "http://example.com/b".toList),
      ("gpgcheck".toList, "1".toList), ("gpgkey".toList, "https://example.com/key".toList)]⟩],
    someKeys, [⟨"3FEF9748", "Packages"⟩]⟩

/-- **A second address is written without a check.** -/
theorem not_safeAsWritten_repeated : ¬ ∀ (read : Str → Except String (List Key)) (file text : Str)
    (keys : List (Str × Str)) (checked : Checked), check read file text keys = .ok checked →
      SafeAsWritten read file keys checked := by
  intro h
  obtain ⟨again, hparse, -, hall⟩ :=
    h readOne "x".toList repeatedFile someKeys repeatedChecked (by decide +kernel)
  have hread : parse (render repeatedChecked.sections (localKey "x".toList repeatedChecked)) =
      .ok [⟨"x".toList, [("baseurl".toList, "https://example.com/a".toList),
        ("baseurl".toList, "http://example.com/b".toList), ("enabled".toList, "1".toList),
        ("gpgcheck".toList, "1".toList),
        ("gpgkey".toList, "file:///var/lib/luft/system-packages/keys/x-1.asc".toList)]⟩] := by
    decide +kernel
  rw [hread] at hparse
  cases hparse
  cases hall with
  | cons hsafe _ =>
    have := hsafe.secure ("baseurl".toList, "http://example.com/b".toList)
      (List.mem_cons_of_mem _ List.mem_cons_self) (by decide +kernel)
      "http://example.com/b".toList (by decide +kernel)
    revert this
    decide +kernel

end Packages

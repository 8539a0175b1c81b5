import Mathlib.Data.List.DropRight
import Mathlib.Data.List.Infix

/-!
# Functions on text

What the standard library of the source does with text, on lists of characters: lines, trimming,
splitting.  For texts that were put together, the lemmas say how they come apart again: lines
(`lines_cons`), the two sides of a separator (`split_once_eq`, `rsplit_once_eq`) and fields
(`fields_join`).
-/

set_option autoImplicit false

namespace Text

/-- White space, as Unicode defines it. -/
def is_whitespace (c : Char) : Bool :=
  (0x9 ≤ c.toNat && c.toNat ≤ 0xd) || (0x2000 ≤ c.toNat && c.toNat ≤ 0x200a) ||
    [0x20, 0x85, 0xa0, 0x1680, 0x2028, 0x2029, 0x202f, 0x205f, 0x3000].contains c.toNat

/-- What stands before and after the first `pattern` in a text. -/
def split_once (pattern : List Char) : List Char → Option (List Char × List Char)
  | [] => if pattern = [] then some ([], []) else none
  | c :: rest =>
    if pattern.isPrefixOf (c :: rest) then some ([], (c :: rest).drop pattern.length)
    else (split_once pattern rest).map fun halves ↦ (c :: halves.1, halves.2)

/-- The parts of a text between separators that are not empty. -/
def fields (separates : Char → Bool) (text : List Char) : List (List Char) :=
  (text.splitOnP separates).filter (· ≠ [])

/-- The words of a text, between white space. -/
def split_whitespace (text : List Char) : List (List Char) :=
  (text.splitOnP is_whitespace).filter (· ≠ [])

/-- What stands before and after the last `c` in a text. -/
def rsplit_once (c : Char) (text : List Char) : Option (List Char × List Char) :=
  (split_once [c] text.reverse).map fun halves ↦ (halves.2.reverse, halves.1.reverse)

/-- What stands before and after the last `pattern` in a text. -/
def rfind (pattern : List Char) : List Char → Option (List Char × List Char)
  | [] => if pattern = [] then some ([], []) else none
  | c :: rest =>
    match rfind pattern rest with
    | some (before, after) => some (c :: before, after)
    | none => if pattern.isPrefixOf (c :: rest) then some ([], (c :: rest).drop pattern.length) else none

/-- A text without what it ends with. -/
def without_suffix (suffix text : List Char) : Option (List Char) :=
  if suffix.isSuffixOf text then some (text.take (text.length - suffix.length)) else none

def trim (text : List Char) : List Char := (text.dropWhile is_whitespace).rdropWhile is_whitespace

def strip_suffix (c : Char) (text : List Char) : Option (List Char) :=
  if text.getLast? = some c then some text.dropLast else none

/-- The lines of a text whose first line already began. -/
def linesFrom (line : List Char) : List Char → List (List Char)
  | [] => if line = [] then [] else [line]
  | c :: rest =>
    if c = '\n' then (strip_suffix '\r' line).getD line :: linesFrom [] rest
    else linesFrom (line ++ [c]) rest

/-- The lines of a text, without what ends them. -/
def lines (text : List Char) : List (List Char) := linesFrom [] text

/-- The printing characters of ASCII but the space. -/
theorem not_whitespace {c : Char} (hlow : 0x20 < c.toNat) (hhigh : c.toNat < 0x7f) :
    is_whitespace c = false := by
  have hlist : [0x20, 0x85, 0xa0, 0x1680, 0x2028, 0x2029, 0x202f, 0x205f, 0x3000].contains c.toNat =
      false := by
    rw [List.contains_eq_mem, decide_eq_false_iff_not]
    simp only [List.mem_cons, List.not_mem_nil, or_false]
    omega
  rw [is_whitespace, hlist, Bool.or_false, Bool.or_eq_false_iff, Bool.and_eq_false_iff,
    Bool.and_eq_false_iff]
  simp only [decide_eq_false_iff_not]
  omega

/-! ## Trimming -/

/-- Nothing to trim. -/
def Trimmed (text : List Char) : Prop :=
  (∀ c, text.head? = some c → is_whitespace c = false) ∧
    ∀ c, text.getLast? = some c → is_whitespace c = false

theorem trim_eq_self {text : List Char} (h : Trimmed text) : trim text = text := by
  have hfront : text.dropWhile is_whitespace = text := by
    cases text with
    | nil => rfl
    | cons c rest => rw [List.dropWhile_cons_of_neg (by rw [h.1 c rfl]; exact Bool.false_ne_true)]
  rw [trim, hfront, List.rdropWhile_eq_self_iff]
  intro hne hlast
  rw [h.2 _ (List.getLast?_eq_some_getLast hne)] at hlast
  cases hlast

/-- A text is what was trimmed off its sides and what was left. -/
theorem exists_trim (text : List Char) : ∃ front back, text = front ++ trim text ++ back ∧
    (∀ c ∈ front, is_whitespace c) ∧ ∀ c ∈ back, is_whitespace c := by
  refine ⟨text.takeWhile is_whitespace,
    (text.dropWhile is_whitespace).rtakeWhile is_whitespace, ?_, ?_, ?_⟩
  · rw [trim, List.append_assoc, List.rdropWhile_append_rtakeWhile,
      List.takeWhile_append_dropWhile]
  · exact fun c hc ↦ List.mem_takeWhile_imp hc
  · exact fun c hc ↦ List.mem_rtakeWhile_imp hc

theorem mem_of_mem_trim {text : List Char} {c : Char} (h : c ∈ trim text) : c ∈ text := by
  obtain ⟨front, back, htext, -⟩ := exists_trim text
  rw [htext]
  exact List.mem_append_left _ (List.mem_append_right _ h)

theorem trimmed_trim (text : List Char) : Trimmed (trim text) := by
  constructor
  · intro c hc
    obtain ⟨rest, hrest⟩ : ∃ rest, text.dropWhile is_whitespace = c :: rest := by
      obtain ⟨more, hmore⟩ := List.rdropWhile_prefix is_whitespace (text.dropWhile is_whitespace)
      rw [← trim] at hmore
      cases htrim : trim text with
      | nil =>
        rw [htrim] at hc
        cases hc
      | cons d rest =>
        rw [htrim] at hc hmore
        cases hc
        exact ⟨rest ++ more, hmore.symm⟩
    have hne : text.dropWhile is_whitespace ≠ [] := by
      rw [hrest]
      exact List.cons_ne_nil c rest
    have hhead := List.head_dropWhile_not is_whitespace hne
    simp only [hrest, List.head_cons] at hhead
    exact hhead
  · intro c hc
    have hne : trim text ≠ [] := by
      rintro hnil
      rw [hnil] at hc
      cases hc
    have hlast := List.rdropWhile_last_not is_whitespace (text.dropWhile is_whitespace) hne
    rw [List.getLast?_eq_some_getLast hne, Option.some_inj] at hc
    rw [← hc]
    exact Bool.eq_false_iff.2 hlast

/-- The back does not change what a trimmed text begins with. -/
theorem head?_trim (text : List Char) : (trim text).head? = (text.dropWhile is_whitespace).head? := by
  cases hrest : text.dropWhile is_whitespace with
  | nil => rw [trim, hrest, List.rdropWhile_nil]
  | cons c rest =>
    have hc : is_whitespace c = false := by
      have hhead := List.head_dropWhile_not is_whitespace (l := text) (by simp [hrest])
      simpa only [hrest, List.head_cons] using hhead
    obtain ⟨more, hmore⟩ := List.rdropWhile_prefix is_whitespace (c :: rest)
    rw [trim, hrest]
    cases htrim : (c :: rest).rdropWhile is_whitespace with
    | nil =>
      rw [List.rdropWhile_eq_nil_iff] at htrim
      have := htrim c List.mem_cons_self
      rw [hc] at this
      cases this
    | cons d front =>
      rw [htrim] at hmore
      cases hmore
      rfl

/-! ## Fields -/

section Fields

variable {separates : Char → Bool}

theorem fields_append_cons (a b : List Char) {c : Char} (hc : separates c) :
    fields separates (a ++ c :: b) = fields separates a ++ fields separates b := by
  rw [fields, List.splitOnP_append_cons a b hc, List.filter_append]
  rfl

theorem fields_nil : fields separates [] = [] := rfl

/-- Separators at the front make no field. -/
theorem fields_append_left {front : List Char} (hfront : ∀ c ∈ front, separates c)
    (text : List Char) : fields separates (front ++ text) = fields separates text := by
  induction front with
  | nil => rfl
  | cons c front ih =>
    have hc := fields_append_cons [] (front ++ text) (hfront c List.mem_cons_self)
    rw [List.nil_append] at hc
    rw [List.cons_append, hc, fields_nil, List.nil_append,
      ih fun d hd ↦ hfront d (List.mem_cons_of_mem c hd)]

/-- Nor do separators at the back. -/
theorem fields_append_right {back : List Char} (hback : ∀ c ∈ back, separates c)
    (text : List Char) : fields separates (text ++ back) = fields separates text := by
  cases back with
  | nil => rw [List.append_nil]
  | cons c back =>
    have hrest := fields_append_left (fun d hd ↦ hback d (List.mem_cons_of_mem c hd)) []
    rw [List.append_nil, fields_nil] at hrest
    rw [fields_append_cons text back (hback c List.mem_cons_self), hrest, List.append_nil]

/-- **Trimming changes no field**, where white space separates. -/
theorem fields_trim (hwhite : ∀ c, is_whitespace c → separates c) (text : List Char) :
    fields separates (trim text) = fields separates text := by
  obtain ⟨front, back, htext, hfront, hback⟩ := exists_trim text
  conv_rhs => rw [htext]
  rw [fields_append_right fun c hc ↦ hwhite c (hback c hc),
    fields_append_left fun c hc ↦ hwhite c (hfront c hc)]

theorem fields_single {word : List Char} (hne : word ≠ []) (h : ∀ c ∈ word, separates c = false) :
    fields separates word = [word] := by
  rw [fields, List.splitOnP_eq_singleton h, List.filter_singleton, decide_eq_true hne, cond_true]

/-- **Words that were joined** are the fields again. -/
theorem fields_join {c : Char} (hc : separates c) {words : List (List Char)}
    (hwords : ∀ word ∈ words, word ≠ [] ∧ ∀ c ∈ word, separates c = false) :
    fields separates (List.intercalate [c] words) = words := by
  induction words with
  | nil => rfl
  | cons word words ih =>
    obtain ⟨hne, hword⟩ := hwords word List.mem_cons_self
    cases words with
    | nil =>
      rw [List.intercalate_singleton]
      exact fields_single hne hword
    | cons next words =>
      rw [List.intercalate_cons_cons, List.append_assoc, List.singleton_append,
        fields_append_cons _ _ hc, fields_single hne hword,
        ih fun other hother ↦ hwords other (List.mem_cons_of_mem word hother)]
      rfl

end Fields

/-! ## Words -/

/-- The parts between separators are parts of the text. -/
theorem infix_of_mem_splitOnP {separates : Char → Bool} {part text : List Char}
    (h : part ∈ text.splitOnP separates) : part <:+: text := by
  suffices hall : (∃ front rest, text.splitOnP separates = front :: rest ∧ front <+: text) ∧
      ∀ part ∈ text.splitOnP separates, part <:+: text from hall.2 part h
  clear h
  induction text with
  | nil =>
    rw [List.splitOnP_nil]
    exact ⟨⟨[], [], rfl, List.prefix_rfl⟩, fun part h ↦ (List.mem_singleton.1 h).symm ▸ List.infix_rfl⟩
  | cons c text ih =>
    obtain ⟨⟨front, rest, hsplit, hfront⟩, hall⟩ := ih
    rw [List.splitOnP_cons_eq_if_modifyHead]
    split_ifs
    · refine ⟨⟨[], _, rfl, List.nil_prefix⟩, fun part h ↦ ?_⟩
      rcases List.mem_cons.1 h with rfl | h
      · exact List.nil_infix
      · exact (hall part h).trans (List.suffix_cons c text).isInfix
    · rw [hsplit] at hall ⊢
      rw [List.modifyHead_cons]
      have hcons : c :: front <+: c :: text := List.cons_prefix_cons.2 ⟨rfl, hfront⟩
      refine ⟨⟨c :: front, rest, rfl, hcons⟩, fun part h ↦ ?_⟩
      rcases List.mem_cons.1 h with rfl | h
      · exact hcons.isInfix
      · exact (hall part (List.mem_cons_of_mem _ h)).trans (List.suffix_cons c text).isInfix

/-- No part has a separator in it. -/
theorem not_separates_of_mem_splitOnP {separates : Char → Bool} {part text : List Char}
    (h : part ∈ text.splitOnP separates) : ∀ c ∈ part, separates c = false := by
  induction text generalizing part with
  | nil =>
    rw [List.splitOnP_nil, List.mem_singleton] at h
    simp [h]
  | cons d text ih =>
    obtain ⟨front, rest, hsplit⟩ := List.exists_cons_of_ne_nil (List.splitOnP_ne_nil separates text)
    rw [hsplit] at ih
    rw [List.splitOnP_cons_eq_if_modifyHead, hsplit] at h
    split at h
    · rcases List.mem_cons.1 h with rfl | h
      · simp
      · exact ih h
    · rename_i hd
      rw [List.modifyHead_cons] at h
      rcases List.mem_cons.1 h with rfl | h
      · intro c hc
        rcases List.mem_cons.1 hc with rfl | hc
        · exact Bool.eq_false_iff.2 hd
        · exact ih List.mem_cons_self c hc
      · exact ih (List.mem_cons_of_mem _ h)

/-- What is written for a separator separates too. -/
theorem splitOnP_map {separates separates' : Char → Bool} {f : Char → Char}
    (hf : ∀ c, separates' (f c) = separates c) (hid : ∀ c, separates c = false → f c = c) (text : List Char) :
    (text.map f).splitOnP separates' = text.splitOnP separates := by
  induction text with
  | nil => rfl
  | cons c text ih =>
    rw [List.map_cons, List.splitOnP_cons_eq_if_modifyHead, List.splitOnP_cons_eq_if_modifyHead, ih, hf]
    cases hc : separates c with
    | true => rfl
    | false => rw [if_neg Bool.false_ne_true, if_neg Bool.false_ne_true, hid c hc]

theorem infix_of_mem_split_whitespace {word text : List Char} (h : word ∈ split_whitespace text) :
    word ≠ [] ∧ word <:+: text := by
  obtain ⟨hmem, hne⟩ := List.mem_filter.1 h
  exact ⟨of_decide_eq_true hne, infix_of_mem_splitOnP hmem⟩

/-! ## Lines and separators -/

theorem split_once_eq {c : Char} {key : List Char} (h : c ∉ key) (value : List Char) :
    split_once [c] (key ++ c :: value) = some (key, value) := by
  induction key with
  | nil => simp [split_once]
  | cons d key ih =>
    rw [List.mem_cons, not_or] at h
    have hne : ¬ [c].isPrefixOf (d :: (key ++ c :: value)) := by simp [h.1]
    rw [List.cons_append, split_once, if_neg hne, ih h.2]
    rfl

theorem split_once_eq_none {c : Char} {text : List Char} (h : c ∉ text) : split_once [c] text = none := by
  induction text with
  | nil => rfl
  | cons d text ih =>
    rw [List.mem_cons, not_or] at h
    rw [split_once, if_neg (by simp [h.1]), ih h.2, Option.map_none]

/-- The first separator, when there is one. -/
theorem split_once_cases (c : Char) (text : List Char) :
    (c ∉ text ∧ split_once [c] text = none) ∨
      ∃ before after, text = before ++ c :: after ∧ c ∉ before ∧ split_once [c] text = some (before, after) := by
  by_cases hc : c ∈ text
  · obtain ⟨before, after, rfl, hbefore⟩ := List.eq_append_cons_of_mem hc
    exact .inr ⟨before, after, rfl, hbefore, split_once_eq hbefore after⟩
  · exact .inl ⟨hc, split_once_eq_none hc⟩

theorem rsplit_once_eq {c : Char} {value : List Char} (h : c ∉ value) (key : List Char) :
    rsplit_once c (key ++ c :: value) = some (key, value) := by
  have hrev : (key ++ c :: value).reverse = value.reverse ++ c :: key.reverse := by
    rw [List.reverse_append, List.reverse_cons, List.append_assoc, List.singleton_append]
  rw [rsplit_once, hrev, split_once_eq (by rwa [List.mem_reverse]), Option.map_some,
    List.reverse_reverse, List.reverse_reverse]

/-- The last separator, when there is one. -/
theorem rsplit_once_cases (c : Char) (text : List Char) :
    (c ∉ text ∧ rsplit_once c text = none) ∨
      ∃ before after, text = before ++ c :: after ∧ c ∉ after ∧ rsplit_once c text = some (before, after) := by
  by_cases hc : c ∈ text
  · obtain ⟨after, before, htext, hafter⟩ := List.eq_append_cons_of_mem (List.mem_reverse.2 hc)
    have heq : text = before.reverse ++ c :: after.reverse := by
      rw [← List.reverse_reverse text, htext]
      simp
    have hnot : c ∉ after.reverse := by rwa [List.mem_reverse]
    exact .inr ⟨_, _, heq, hnot, heq ▸ rsplit_once_eq hnot _⟩
  · have hreverse : c ∉ text.reverse := by rwa [List.mem_reverse]
    exact .inl ⟨hc, by rw [rsplit_once, split_once_eq_none hreverse, Option.map_none]⟩

theorem without_suffix_append (suffix text : List Char) :
    without_suffix suffix (text ++ suffix) = some text := by
  have hsuffix : suffix.isSuffixOf (text ++ suffix) = true :=
    List.isSuffixOf_iff_suffix.2 (List.suffix_append text suffix)
  rw [without_suffix, if_pos hsuffix, List.length_append, Nat.add_sub_cancel, List.take_left]

/-- What stands after a separator stands in the text. -/
theorem mem_of_split_once {sep text before after : List Char} {c : Char}
    (h : split_once sep text = some (before, after)) (hc : c ∈ after) : c ∈ text := by
  induction text generalizing before with
  | nil =>
    rw [split_once] at h
    split at h
    · cases h
      exact hc
    · cases h
  | cons d text ih =>
    rw [split_once] at h
    split at h
    · cases h
      exact List.mem_of_mem_drop hc
    · obtain ⟨⟨front, back⟩, hsplit, heq⟩ := Option.map_eq_some_iff.1 h
      cases heq
      exact List.mem_cons_of_mem d (ih hsplit)

theorem linesFrom_append {line : List Char} (h : '\n' ∉ line) (begun rest : List Char) :
    linesFrom begun (line ++ '\n' :: rest) =
      (strip_suffix '\r' (begun ++ line)).getD (begun ++ line) :: linesFrom [] rest := by
  induction line generalizing begun with
  | nil => rw [List.nil_append, linesFrom, if_pos rfl, List.append_nil]
  | cons c line ih =>
    rw [List.mem_cons, not_or] at h
    rw [List.cons_append, linesFrom, if_neg (Ne.symm h.1), ih h.2, List.append_assoc,
      List.singleton_append]

/-- **A line at the front of a text.** -/
theorem lines_cons {line : List Char} (h : '\n' ∉ line) (hreturn : line.getLast? ≠ some '\r')
    (rest : List Char) : lines (line ++ '\n' :: rest) = line :: lines rest := by
  rw [lines, linesFrom_append h, List.nil_append, strip_suffix, if_neg hreturn]
  rfl

/-- **Lines with nothing in them that ends a line.** -/
theorem lines_flatMap {all : List (List Char)} (h : ∀ line ∈ all, '\n' ∉ line ∧ '\r' ∉ line) :
    lines (all.flatMap (· ++ ['\n'])) = all := by
  induction all with
  | nil => rfl
  | cons line all ih =>
    obtain ⟨hnewline, hreturn⟩ := h line List.mem_cons_self
    rw [List.flatMap_cons, List.append_assoc, List.singleton_append,
      lines_cons hnewline fun hlast ↦ hreturn (List.mem_of_getLast? hlast),
      ih fun line' hline' ↦ h line' (List.mem_cons_of_mem _ hline')]

theorem newline_of_mem_linesFrom {begun text line : List Char} (hbegun : '\n' ∉ begun)
    (h : line ∈ linesFrom begun text) : '\n' ∉ line := by
  induction text generalizing begun with
  | nil =>
    rw [linesFrom] at h
    split at h
    · cases h
    · rwa [List.mem_singleton.1 h]
  | cons c rest ih =>
    rw [linesFrom] at h
    split at h
    · rcases List.mem_cons.1 h with rfl | h
      · rw [strip_suffix]
        split
        · exact fun hin ↦ hbegun (List.dropLast_subset _ hin)
        · exact hbegun
      · exact ih List.not_mem_nil h
    · rename_i hc
      refine ih (fun hin ↦ ?_) h
      rcases List.mem_append.1 hin with hin | hin
      · exact hbegun hin
      · exact hc (List.mem_singleton.1 hin).symm

/-- A line has no line break in it. -/
theorem newline_of_mem_lines {text line : List Char} (h : line ∈ lines text) : '\n' ∉ line :=
  newline_of_mem_linesFrom List.not_mem_nil h

/-! ## The last occurrence -/

theorem rfind_cases (pattern text : List Char) :
    (rfind pattern text = none ∧ ∀ before after, text ≠ before ++ (pattern ++ after)) ∨
      ∃ before after, rfind pattern text = some (before, after) ∧ text = before ++ (pattern ++ after) ∧
        ∀ before' after', text = before' ++ (pattern ++ after') → before'.length ≤ before.length := by
  induction text with
  | nil =>
    rw [rfind]
    by_cases hnil : pattern = []
    · rw [if_pos hnil]
      refine .inr ⟨[], [], rfl, by simp [hnil], fun before' after' h ↦ ?_⟩
      rw [(List.append_eq_nil_iff.1 h.symm).1]
    · rw [if_neg hnil]
      exact .inl ⟨rfl, fun before after h ↦
        hnil (List.append_eq_nil_iff.1 (List.append_eq_nil_iff.1 h.symm).2).1⟩
  | cons c text ih =>
    rw [rfind]
    rcases ih with ⟨hnone, hnot⟩ | ⟨before, after, hsome, heq, hlast⟩
    · rw [hnone]
      dsimp only
      -- with no occurrence in the rest, there is one at the front at most
      have hfront : ∀ before after, c :: text = before ++ (pattern ++ after) → before = [] := by
        rintro (_ | ⟨d, before⟩) after h
        · rfl
        · exact absurd (List.tail_eq_of_cons_eq h) (hnot before after)
      by_cases hbegins : pattern.isPrefixOf (c :: text)
      · rw [if_pos hbegins]
        obtain ⟨after, hafter⟩ := List.isPrefixOf_iff_prefix.1 hbegins
        refine .inr ⟨[], after, by rw [← hafter, List.drop_left], by rw [hafter]; rfl, fun before' after' h ↦ ?_⟩
        rw [hfront before' after' h]
      · rw [if_neg hbegins]
        refine .inl ⟨rfl, fun before after h ↦ hbegins ?_⟩
        rw [hfront before after h] at h
        rw [h]
        exact List.isPrefixOf_iff_prefix.2 (List.prefix_append pattern after)
    · rw [hsome]
      refine .inr ⟨c :: before, after, rfl, by rw [heq]; rfl, fun before' after' h ↦ ?_⟩
      rcases before' with _ | ⟨d, before'⟩
      · exact Nat.zero_le _
      · exact Nat.succ_le_succ (hlast before' after' (List.tail_eq_of_cons_eq h))

theorem rfind_eq_none_iff {pattern text : List Char} :
    rfind pattern text = none ↔ ∀ before after, text ≠ before ++ (pattern ++ after) := by
  rcases rfind_cases pattern text with ⟨hnone, hnot⟩ | ⟨before, after, hsome, heq, -⟩
  · exact iff_of_true hnone hnot
  · exact iff_of_false (by simp [hsome]) fun h ↦ h before after heq

/-- **The last occurrence**, which no other one is behind. -/
theorem rfind_eq_some_iff {pattern text before after : List Char} :
    rfind pattern text = some (before, after) ↔ text = before ++ (pattern ++ after) ∧
      ∀ before' after', text = before' ++ (pattern ++ after') → before'.length ≤ before.length := by
  rcases rfind_cases pattern text with ⟨hnone, hnot⟩ | ⟨first, second, hsome, heq, hlast⟩
  · exact iff_of_false (by simp [hnone]) fun h ↦ hnot before after h.1
  · constructor
    · intro h
      rw [hsome, Option.some_inj, Prod.mk.injEq] at h
      obtain ⟨rfl, rfl⟩ := h
      exact ⟨heq, hlast⟩
    · rintro ⟨htext, hothers⟩
      have hlength : before.length = first.length :=
        le_antisymm (hlast before after htext) (hothers first second heq)
      obtain ⟨rfl, hrest⟩ := List.append_inj (heq.symm.trans htext) hlength.symm
      rw [hsome, List.append_cancel_left hrest]
end Text

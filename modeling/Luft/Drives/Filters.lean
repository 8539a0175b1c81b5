import Luft.Lib.Runs
import Mathlib.Data.List.Pairwise

/-!
# What is kept of a cloud drive

A drive's files are kept on the computer under some folders, but for what is skipped of them.  `keeps` is the
difference of two lists of folders and files; `add` and `remove` change both lists when something is to be kept
or to be freed.

After any changes no kept folder is in another one and each thing skipped is in a kept folder (`Sound`).  Freeing
changes just what it was asked to.  Keeping does so exactly where nothing above the path is skipped, and nothing
in it if the path is kept already (`Plain`, `changes_iff`).
-/

set_option autoImplicit false

namespace Drives

/-- A path in a drive, empty for the whole drive. -/
abbrev Path := List Char

def covers (parent path : Path) : Bool :=
  parent = [] || path = parent || (parent.isPrefixOf path && (path.drop parent.length).head? = some '/')

/-- What is kept, but for what is skipped. -/
structure Filters where
  kept : List Path
  skipped : List Path
  deriving DecidableEq

namespace Filters

def empty : Filters := ⟨[], []⟩

def keeps (filters : Filters) (path : Path) : Bool :=
  filters.kept.any (covers · path) && !filters.skipped.any (covers · path)

def add (path : Path) (filters : Filters) : Filters :=
  if filters.keeps path then filters
  else
    { kept :=
        if filters.kept.any (covers · path) then filters.kept
        else filters.kept.filter (fun root ↦ !covers path root) ++ [path]
      skipped := filters.skipped.filter fun skip ↦ !covers path skip && !covers skip path }

def remove (path : Path) (filters : Filters) : Filters :=
  let kept := filters.kept.filter fun root ↦ !covers path root
  let skipped := filters.skipped.filter fun skip ↦ !covers path skip
  { kept, skipped := if kept.any (covers · path) then skipped ++ [path] else skipped }

end Filters

/-! ## What covers what -/

variable {a b c path q root skip : Path} {filters : Filters}

theorem covers_iff : covers a b ↔ a = [] ∨ b = a ∨ ∃ rest, b = a ++ '/' :: rest := by
  simp only [covers, Bool.or_eq_true, Bool.and_eq_true, decide_eq_true_eq, List.isPrefixOf_iff_prefix, or_assoc]
  refine or_congr_right (or_congr_right ⟨?_, ?_⟩)
  · rintro ⟨⟨rest, rfl⟩, hhead⟩
    rw [List.drop_left, List.head?_eq_some_iff] at hhead
    obtain ⟨more, rfl⟩ := hhead
    exact ⟨more, rfl⟩
  · rintro ⟨rest, rfl⟩
    exact ⟨List.prefix_append a _, by rw [List.drop_left]; rfl⟩

@[simp] theorem covers_refl (a : Path) : covers a a := covers_iff.2 (.inr (.inl rfl))

@[simp] theorem covers_nil (a : Path) : covers [] a := covers_iff.2 (.inl rfl)

theorem length_le_of_covers (h : covers a b) : a.length ≤ b.length := by
  rcases covers_iff.1 h with rfl | rfl | ⟨rest, rfl⟩
  · exact Nat.zero_le _
  · exact Nat.le_refl _
  · simp

theorem covers_trans (hab : covers a b) (hbc : covers b c) : covers a c := by
  rcases covers_iff.1 hab with rfl | rfl | ⟨rest, rfl⟩
  · exact covers_nil c
  · exact hbc
  · rcases covers_iff.1 hbc with h | rfl | ⟨more, rfl⟩
    · simp at h
    · exact hab
    · exact covers_iff.2 (.inr (.inr ⟨rest ++ '/' :: more, by simp⟩))

theorem covers_antisymm (hab : covers a b) (hba : covers b a) : a = b := by
  have hle := length_le_of_covers hba
  rcases covers_iff.1 hab with rfl | rfl | ⟨rest, rfl⟩
  · exact (List.eq_nil_of_length_eq_zero (Nat.le_zero.1 hle)).symm
  · rfl
  · simp only [List.length_append, List.length_cons] at hle
    omega

/-- Of two that are above the same, one is above the other. -/
theorem covers_or (hac : covers a c) (hbc : covers b c) : covers a b ∨ covers b a := by
  rcases covers_iff.1 hac with rfl | rfl | ⟨rest, rfl⟩
  · exact .inl (covers_nil b)
  · exact .inr hbc
  rcases covers_iff.1 hbc with rfl | heq | ⟨more, heq⟩
  · exact .inr (covers_nil a)
  · exact .inl (heq ▸ hac)
  rcases List.append_eq_append_iff.1 heq with ⟨between, rfl, hrest⟩ | ⟨between, rfl, hrest⟩
  · refine .inl (covers_iff.2 ?_)
    rcases between with _ | ⟨c, between⟩
    · exact .inr (.inl (List.append_nil a))
    · obtain rfl := (List.cons.inj hrest).1
      exact .inr (.inr ⟨between, rfl⟩)
  · refine .inr (covers_iff.2 ?_)
    rcases between with _ | ⟨c, between⟩
    · exact .inr (.inl (List.append_nil b))
    · obtain rfl := (List.cons.inj hrest).1
      exact .inr (.inr ⟨between, rfl⟩)

/-! ## What is kept -/

namespace Filters

theorem keeps_iff : filters.keeps path ↔ (∃ root ∈ filters.kept, covers root path) ∧
    ∀ skip ∈ filters.skipped, ¬ covers skip path := by
  simp [keeps]

/-- No kept folder is in another, and each thing skipped is in one. -/
structure Sound (filters : Filters) : Prop where
  apart : filters.kept.Pairwise fun a b ↦ ¬ covers a b ∧ ¬ covers b a
  inside : ∀ skip ∈ filters.skipped, ∃ root ∈ filters.kept, covers root skip ∧ root ≠ skip

theorem Sound.ne_nil (h : filters.Sound) (hskip : skip ∈ filters.skipped) : skip ≠ [] := by
  rintro rfl
  obtain ⟨root, -, hcovers, hne⟩ := h.inside [] hskip
  exact hne (covers_antisymm hcovers (covers_nil root))

/-! ## Adding -/

theorem add_of_keeps (h : filters.keeps path) : filters.add path = filters := if_pos h

theorem mem_skipped_add (h : ¬ filters.keeps path) :
    skip ∈ (filters.add path).skipped ↔ skip ∈ filters.skipped ∧ ¬ covers path skip ∧ ¬ covers skip path := by
  simp [add, h]

theorem mem_kept_add (h : ¬ filters.keeps path) : root ∈ (filters.add path).kept ↔
    if filters.kept.any (covers · path) then root ∈ filters.kept
    else root ∈ filters.kept ∧ ¬ covers path root ∨ root = path := by
  simp only [add, if_neg h]
  split_ifs
  · rfl
  · simp

theorem Sound.add (h : filters.Sound) (path : Path) : (filters.add path).Sound := by
  by_cases hkeeps : filters.keeps path
  · rwa [add_of_keeps hkeeps]
  by_cases hroot : filters.kept.any (covers · path)
  · have hkept : (filters.add path).kept = filters.kept := by simp [Filters.add, hkeeps, hroot]
    refine ⟨hkept ▸ h.apart, fun skip hskip ↦ ?_⟩
    rw [hkept]
    exact h.inside skip ((mem_skipped_add hkeeps).1 hskip).1
  · have hkept : (filters.add path).kept = filters.kept.filter (fun root ↦ !covers path root) ++ [path] := by
      simp [Filters.add, hkeeps, hroot]
    refine ⟨?_, fun skip hskip ↦ ?_⟩
    · rw [hkept, List.pairwise_append]
      refine ⟨h.apart.sublist List.filter_sublist, List.pairwise_singleton _ _, fun a ha b hb ↦ ?_⟩
      obtain rfl := List.mem_singleton.1 hb
      simp only [List.any_eq_true, not_exists, not_and] at hroot
      simp only [List.mem_filter, Bool.not_eq_true'] at ha
      exact ⟨hroot a ha.1, by simp [ha.2]⟩
    · obtain ⟨hold, hbelow, -⟩ := (mem_skipped_add hkeeps).1 hskip
      obtain ⟨root, hmem, hcovers, hne⟩ := h.inside skip hold
      refine ⟨root, ?_, hcovers, hne⟩
      rw [mem_kept_add hkeeps, if_neg hroot]
      exact .inl ⟨hmem, fun hpath ↦ hbelow (covers_trans hpath hcovers)⟩

theorem Sound.remove (h : filters.Sound) (path : Path) : (filters.remove path).Sound := by
  have hinside : ∀ skip ∈ filters.skipped, ¬ covers path skip →
      ∃ root ∈ (filters.remove path).kept, covers root skip ∧ root ≠ skip := by
    intro skip hskip hbelow
    obtain ⟨root, hmem, hcovers, hne⟩ := h.inside skip hskip
    refine ⟨root, ?_, hcovers, hne⟩
    simp only [Filters.remove, List.mem_filter, Bool.not_eq_true']
    exact ⟨hmem, by simpa using fun hpath ↦ hbelow (covers_trans hpath hcovers)⟩
  refine ⟨h.apart.sublist List.filter_sublist, fun skip hskip ↦ ?_⟩
  by_cases hany : (filters.remove path).kept.any (covers · path)
  · have hskipped : (filters.remove path).skipped = filters.skipped.filter (fun skip ↦ !covers path skip) ++ [path] :=
      if_pos hany
    rw [hskipped, List.mem_append, List.mem_filter, List.mem_singleton] at hskip
    rcases hskip with ⟨hold, hbelow⟩ | rfl
    · exact hinside skip hold (by simpa using hbelow)
    · obtain ⟨root, hmem, hcovers⟩ := List.any_eq_true.1 hany
      refine ⟨root, hmem, hcovers, ?_⟩
      rintro rfl
      simp [Filters.remove] at hmem
  · have hskipped : (filters.remove path).skipped = filters.skipped.filter (fun skip ↦ !covers path skip) := if_neg hany
    rw [hskipped, List.mem_filter] at hskip
    exact hinside skip hskip.1 (by simpa using hskip.2)

/-! ## What a change does -/

/-- Under a path all is kept, or nothing; what is neither in it nor above it stays as it was. -/
structure Turned (before after : Filters) (path : Path) (kept : Bool) : Prop where
  under : ∀ q, covers path q → after.keeps q = kept
  beside : ∀ q, ¬ covers path q → ¬ covers q path → after.keeps q = before.keeps q

theorem mem_kept_remove : root ∈ (filters.remove path).kept ↔ root ∈ filters.kept ∧ ¬ covers path root := by
  simp [remove]

theorem mem_skipped_remove : skip ∈ (filters.remove path).skipped ↔ (skip ∈ filters.skipped ∧ ¬ covers path skip) ∨
    skip = path ∧ ∃ root ∈ (filters.remove path).kept, covers root path := by
  by_cases hany : (filters.remove path).kept.any (covers · path)
  · have hskipped : (filters.remove path).skipped = filters.skipped.filter (fun skip ↦ !covers path skip) ++ [path] :=
      if_pos hany
    simp [hskipped, List.any_eq_true.1 hany]
  · have hskipped : (filters.remove path).skipped = filters.skipped.filter (fun skip ↦ !covers path skip) := if_neg hany
    rw [List.any_eq_true] at hany
    simp [hskipped, hany]

/-- **Freeing** frees what was asked, and no more. -/
theorem turned_remove (filters : Filters) (path : Path) : Turned filters (filters.remove path) path false := by
  refine ⟨fun q hq ↦ Bool.eq_false_iff.2 fun hkeeps ↦ ?_, fun q hunder habove ↦ ?_⟩
  · obtain ⟨⟨root, hroot, hcovers⟩, hskips⟩ := keeps_iff.1 hkeeps
    have hpath : covers root path := (covers_or hcovers hq).resolve_right (mem_kept_remove.1 hroot).2
    exact hskips path (mem_skipped_remove.2 (.inr ⟨rfl, root, hroot, hpath⟩)) hq
  · have hbelow {r : Path} (hr : covers r q) : ¬ covers path r := fun hpath ↦ hunder (covers_trans hpath hr)
    rw [Bool.eq_iff_iff, keeps_iff, keeps_iff]
    refine and_congr ?_ ⟨fun h skip hskip hq ↦ ?_, fun h skip hskip hq ↦ ?_⟩
    · constructor
      · rintro ⟨root, hroot, hq⟩
        exact ⟨root, (mem_kept_remove.1 hroot).1, hq⟩
      · rintro ⟨root, hroot, hq⟩
        exact ⟨root, mem_kept_remove.2 ⟨hroot, hbelow hq⟩, hq⟩
    · exact h skip (mem_skipped_remove.2 (.inl ⟨hskip, hbelow hq⟩)) hq
    · rcases mem_skipped_remove.1 hskip with ⟨hold, -⟩ | ⟨rfl, -⟩
      · exact h skip hold hq
      · exact hunder hq

/-- Nothing above the path is skipped, and nothing in it if it is kept. -/
def Plain (filters : Filters) (path : Path) : Prop :=
  (∀ skip ∈ filters.skipped, covers skip path → skip = path) ∧
    (filters.keeps path → ∀ skip ∈ filters.skipped, ¬ covers path skip)

/-- **Keeping** keeps what was asked, and no more, where it is plain. -/
theorem turned_add (h : filters.Plain path) : Turned filters (filters.add path) path true := by
  by_cases hkeeps : filters.keeps path
  · obtain ⟨⟨root, hroot, hpath⟩, hskips⟩ := keeps_iff.1 hkeeps
    rw [add_of_keeps hkeeps]
    refine ⟨fun q hq ↦ keeps_iff.2 ⟨⟨root, hroot, covers_trans hpath hq⟩, fun skip hskip hskipped ↦ ?_⟩, fun q _ _ ↦ rfl⟩
    exact (covers_or hskipped hq).elim (hskips skip hskip) (h.2 hkeeps skip hskip)
  have hroots {q : Path} (hq : ∃ root ∈ filters.kept, covers root q) : ∃ root ∈ (filters.add path).kept, covers root q := by
    obtain ⟨root, hroot, hq⟩ := hq
    by_cases hany : filters.kept.any (covers · path)
    · exact ⟨root, (mem_kept_add hkeeps).2 (by rwa [if_pos hany]), hq⟩
    · by_cases hpath : covers path root
      · exact ⟨path, (mem_kept_add hkeeps).2 (by rw [if_neg hany]; exact .inr rfl), covers_trans hpath hq⟩
      · exact ⟨root, (mem_kept_add hkeeps).2 (by rw [if_neg hany]; exact .inl ⟨hroot, hpath⟩), hq⟩
  refine ⟨fun q hq ↦ keeps_iff.2 ⟨?_, fun skip hskip hskipped ↦ ?_⟩, fun q hunder habove ↦ ?_⟩
  · by_cases hany : filters.kept.any (covers · path)
    · obtain ⟨root, hroot, hpath⟩ := List.any_eq_true.1 hany
      exact hroots ⟨root, hroot, covers_trans hpath hq⟩
    · exact ⟨path, (mem_kept_add hkeeps).2 (by rw [if_neg hany]; exact .inr rfl), hq⟩
  · obtain ⟨-, hbelow, habove⟩ := (mem_skipped_add hkeeps).1 hskip
    exact (covers_or hskipped hq).elim habove hbelow
  · rw [Bool.eq_iff_iff, keeps_iff, keeps_iff]
    refine and_congr ⟨?_, hroots⟩ ⟨fun hskips skip hskip hq ↦ ?_, fun hskips skip hskip hq ↦ ?_⟩
    · rintro ⟨root, hroot, hq⟩
      rw [mem_kept_add hkeeps] at hroot
      split_ifs at hroot
      · exact ⟨root, hroot, hq⟩
      · rcases hroot with ⟨hroot, -⟩ | rfl
        · exact ⟨root, hroot, hq⟩
        · exact absurd hq hunder
    · refine hskips skip ((mem_skipped_add hkeeps).2 ⟨hskip, fun hpath ↦ hunder (covers_trans hpath hq), fun hpath ↦ ?_⟩) hq
      rw [h.1 skip hskip hpath] at hq
      exact hunder hq
    · exact hskips skip ((mem_skipped_add hkeeps).1 hskip).1 hq

/-- In between two there is nothing but what the rest names. -/
theorem eq_of_covers {rest : List Char} (ha : a ≠ []) (hne : a ≠ b) (hrest : '/' ∉ rest) (hab : covers a b)
    (hb : covers b (a ++ '/' :: rest)) : b = a ++ '/' :: rest := by
  rcases covers_iff.1 hab with rfl | rfl | ⟨more, rfl⟩
  · exact absurd rfl ha
  · exact absurd rfl hne
  rcases covers_iff.1 hb with h | h | ⟨last, h⟩
  · simp at h
  · exact h.symm
  · rw [List.append_assoc, List.append_cancel_left_eq, List.cons_append, List.cons.injEq] at h
    exact absurd (h.2 ▸ List.mem_append_right more List.mem_cons_self) hrest

theorem exists_longer (paths : List Path) : ∃ rest : List Char, '/' ∉ rest ∧ ∀ p ∈ paths, p.length < rest.length := by
  induction paths with
  | nil => exact ⟨[], List.not_mem_nil, fun p hp ↦ absurd hp List.not_mem_nil⟩
  | cons path paths ih =>
    obtain ⟨rest, hrest, hlong⟩ := ih
    refine ⟨rest ++ List.replicate (path.length + 1) 'x', ?_, fun p hp ↦ ?_⟩
    · simpa [List.mem_replicate] using hrest
    · rw [List.length_append, List.length_replicate]
      rcases List.mem_cons.1 hp with rfl | hp
      · omega
      · have := hlong p hp
        omega

/-- Where keeping does what was asked, it is plain. -/
theorem plain_of_turned (h : filters.Sound) (hturned : Turned filters (filters.add path) path true) :
    filters.Plain path := by
  refine ⟨fun skip hskip hpath ↦ ?_, fun hkeeps skip hskip hpath ↦ ?_⟩
  · by_contra hne
    -- A name so long that nothing is called that.
    obtain ⟨rest, hrest, hlong⟩ := exists_longer (path :: filters.skipped)
    obtain ⟨root, hroot, hcovers, -⟩ := h.inside skip hskip
    have hq : covers skip (skip ++ '/' :: rest) := covers_iff.2 (.inr (.inr ⟨rest, rfl⟩))
    have hlonger {p : Path} (hp : p ∈ path :: filters.skipped) : p.length < (skip ++ '/' :: rest).length :=
      Nat.lt_of_lt_of_le (hlong p hp) (by simp; omega)
    have hself {p : Path} (hp : p ∈ path :: filters.skipped) (habove : covers skip p) (hpne : skip ≠ p) :
        ¬ covers p (skip ++ '/' :: rest) := fun hin ↦
      (hlonger hp).ne (congrArg List.length (eq_of_covers (h.ne_nil hskip) hpne hrest habove hin))
    have hkeeps : ¬ filters.keeps path := fun hkeeps ↦ (keeps_iff.1 hkeeps).2 skip hskip hpath
    have hbefore : ¬ filters.keeps (skip ++ '/' :: rest) := fun hkeeps ↦ (keeps_iff.1 hkeeps).2 skip hskip hq
    rw [← hturned.beside _ (hself List.mem_cons_self hpath hne) fun hup ↦
      absurd (length_le_of_covers hup) (Nat.not_le.2 (hlonger List.mem_cons_self)), keeps_iff] at hbefore
    refine hbefore ⟨⟨root, ?_, covers_trans hcovers hq⟩, fun other hother hin ↦ ?_⟩
    · have hup : covers root path := covers_trans hcovers hpath
      rw [mem_kept_add hkeeps, if_pos (List.any_eq_true.2 ⟨root, hroot, hup⟩)]
      exact hroot
    · obtain ⟨hold, hbelow, habove⟩ := (mem_skipped_add hkeeps).1 hother
      have hup : covers skip other := (covers_or hq hin).resolve_right fun hup ↦ habove (covers_trans hup hpath)
      by_cases heq : skip = other
      · exact habove (heq ▸ hpath)
      · exact hself (List.mem_cons_of_mem _ hold) hup heq hin
  · have hkept := hturned.under skip hpath
    rw [add_of_keeps hkeeps] at hkept
    exact (keeps_iff.1 hkept).2 skip hskip (covers_refl skip)

/-! ## Any changes -/

inductive Change
  | add (path : Path)
  | remove (path : Path)

def Change.step : Change → Filters → Filters
  | .add path, filters => filters.add path
  | .remove path, filters => filters.remove path

def Change.target : Change → Path
  | .add path => path
  | .remove path => path

/-- Whether the path is to be kept. -/
def Change.keeping : Change → Bool
  | .add _ => true
  | .remove _ => false

/-- A change does what it was asked to, and leaves no kept folder in another one. -/
structure AsAsked (change : Change) (filters : Filters) : Prop where
  turned : Turned filters (change.step filters) change.target change.keeping
  apart : (change.step filters).kept.Pairwise fun a b ↦ ¬ covers a b ∧ ¬ covers b a

/-- A path that is to be kept is plain. -/
def PlainStep : Change → Filters → Prop
  | .add path, filters => filters.Plain path
  | .remove _, _ => True

theorem Sound.step (h : filters.Sound) (change : Change) : (change.step filters).Sound := by
  cases change with
  | add path => exact h.add path
  | remove path => exact h.remove path

theorem asAsked_iff (h : filters.Sound) (change : Change) : AsAsked change filters ↔ PlainStep change filters := by
  refine ⟨fun hasked ↦ ?_, fun hplain ↦ ⟨?_, (h.step change).apart⟩⟩
  · cases change with
    | add path => exact plain_of_turned h hasked.turned
    | remove path => exact trivial
  · cases change with
    | add path => exact turned_add hplain
    | remove path => exact turned_remove filters path

theorem sound_empty : empty.Sound := ⟨List.Pairwise.nil, fun _ h ↦ absurd h List.not_mem_nil⟩

/-- **Keeping and freeing change what was asked**, and no more, just when each path that is to be kept is plain. -/
theorem changes_iff (changes : List Change) :
    Runs.Along Change.step AsAsked changes empty ↔ Runs.Along Change.step PlainStep changes empty := by
  have hsound := sound_empty
  generalize empty = filters at hsound
  induction changes generalizing filters with
  | nil => exact Iff.rfl
  | cons change changes ih => exact and_congr (asAsked_iff hsound change) (ih _ (hsound.step change))

/-- What was skipped of a folder comes back with one file of it. -/
theorem kept_beside : ¬ ∀ changes, Runs.Along Change.step AsAsked changes empty := by
  intro h
  obtain ⟨-, -, ⟨hturned, -⟩, -⟩ := h [.add ['D'], .remove ['D', '/', 'o'], .add ['D', '/', 'o', '/', 'a']]
  have heq := hturned.beside ['D', '/', 'o', '/', 'b'] (by decide) (by decide)
  revert heq
  decide

end Filters

end Drives

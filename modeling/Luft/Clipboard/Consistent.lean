import Luft.Clipboard.History
import Mathlib.Data.List.Pairwise

/-!
# The history stays consistent

Whatever lands when, the history is in order, without two of the same entry and within its limits
(`orderly_run`).  The rest of what it should be may fail when a copy lands after a later one of the same
entry, when a copy or a put lands that began before its entry was taken out, and when an image is put
back whose file was discarded while it was loaded.  Where no step is such (`Timely`), all of it holds
throughout the run (`consistent_run`).
-/

set_option autoImplicit false

namespace Clipboard

variable {Id : Type} {s s' : History Id} {entry : Ref} {key : Key Id} {mimeType : String} {copied began : ℕ}

/-! ## The statement -/

/-- What the history is, whatever lands when. -/
structure Orderly (s : History Id) : Prop where
  /-- Newest first. -/
  sorted : s.items.Pairwise fun a b ↦ (s.objects b).copied ≤ (s.objects a).copied
  different : s.items.Pairwise fun a b ↦ (s.objects a).key ≠ (s.objects b).key
  few : s.items.length ≤ HISTORY_LIMIT
  fewImages : (s.items.filter fun item ↦ (imageOf s item).isSome).length ≤ IMAGE_LIMIT

/-- An entry is as its copies, its puts and its removals left it. -/
structure Kept (s : History Id) (item : Ref) : Prop where
  /-- Its number is that of a copy or put of it. -/
  landed : ∃ landing ∈ s.log.landings, landing.key = (s.objects item).key ∧
    landing.copied = (s.objects item).copied
  /-- No copy or put of it has a later number. -/
  latest : ∀ landing ∈ s.log.landings, landing.key = (s.objects item).key →
    landing.copied ≤ (s.objects item).copied
  /-- After each time it was taken out, it was copied or put. -/
  back : ∀ removal ∈ s.log.removals, removal.key = (s.objects item).key →
    ∃ landing ∈ s.log.landings, landing.key = (s.objects item).key ∧ removal.time < landing.began
  /-- Its file is there. -/
  file : ∀ id, imageOf s item = some id → id ∉ s.discarded

/-- All that the history should be. -/
structure Consistent (s : History Id) : Prop where
  orderly : Orderly s
  kept : ∀ item ∈ s.items, Kept s item

/-- A copy or put may come to the history: no later one of its entry did, and it began after its entry was taken out,
unless that is there again. -/
structure InTime (s : History Id) (key : Key Id) (copied began : ℕ) : Prop where
  latest : ∀ landing ∈ s.log.landings, landing.key = key → landing.copied ≤ copied
  back : (∃ item ∈ s.items, (s.objects item).key = key) ∨
    ∀ removal ∈ s.log.removals, removal.key = key → removal.time < began

/-- What lands with an act lands in time. -/
def Timely (checksum : Bytes → Id) (a : Act) (s : History Id) : Prop :=
  match a with
  | .textRead index (some text) =>
    ∀ copied began, s.pending[index]? = some (.text copied began) → text.all is_blank = false →
      InTime s (.text (text.take TEXT_LIMIT)) copied began
  | .imageRead index (some bytes) =>
    ∀ mimeType copied began, s.pending[index]? = some (.image mimeType copied began) →
      (∃ item ∈ s.items, (s.objects item).key = .image (checksum bytes)) →
        InTime s (.image (checksum bytes)) copied began
  | .saved index true =>
    ∀ id mimeType copied began, s.pending[index]? = some (.saving id mimeType copied began) →
      InTime s (.image id) copied began
  | .loaded index true =>
    ∀ entry began, s.pending[index]? = some (.loading entry began) →
      InTime s (s.objects entry).key (s.copies + 1) began ∧ ∀ id, imageOf s entry = some id → id ∉ s.discarded
  | _ => True

/-! ## Lists in order -/

section

variable {α : Type}

/-- What of a sorted list is filtered from its front, with what is behind it. -/
theorem filter_append_drop {p : α → Bool} {l : List α} (h : l.Pairwise fun a b ↦ p b = true → p a = true) :
    l.filter p ++ l.drop (l.filter p).length = l ∧ ∀ a ∈ l.drop (l.filter p).length, p a = false := by
  induction l with
  | nil => simp
  | cons a l ih =>
    rw [List.pairwise_cons] at h
    cases ha : p a with
    | true =>
      obtain ⟨happend, hfalse⟩ := ih h.2
      rw [List.filter_cons_of_pos ha, List.length_cons, List.drop_succ_cons, List.cons_append, happend]
      exact ⟨rfl, hfalse⟩
    | false =>
      have hall : ∀ b ∈ l, p b = false := fun b hb ↦ by
        by_contra hne
        rw [h.1 b hb (by simpa using hne)] at ha
        cases ha
      have hnil : l.filter p = [] := List.filter_eq_nil_iff.2 fun b hb ↦ by simp [hall b hb]
      rw [List.filter_cons_of_neg (by simp [ha]), hnil]
      refine ⟨rfl, fun b hb ↦ ?_⟩
      rcases List.mem_cons.1 hb with rfl | hb
      · exact ha
      · exact hall b hb

end

/-! ## The limits -/

theorem fewImages_sublist (s : History Id) (images : ℕ) (entries : List Ref) :
    (fewImages s images entries).Sublist entries := by
  induction entries generalizing images with
  | nil => exact List.Sublist.refl []
  | cons entry entries ih =>
    rw [fewImages]
    split_ifs
    · exact (ih _).cons_cons _
    · exact (ih _).cons_cons _
    · exact (ih _).cons _

theorem count_fewImages (s : History Id) (images : ℕ) (entries : List Ref) :
    ((fewImages s images entries).filter fun item ↦ (imageOf s item).isSome).length ≤ IMAGE_LIMIT - images := by
  induction entries generalizing images with
  | nil => exact Nat.zero_le _
  | cons entry entries ih =>
    rw [fewImages]
    split_ifs with hnone hfew
    · rw [List.filter_cons_of_neg (by simp [hnone])]
      exact ih images
    · rw [List.filter_cons_of_pos (by simpa [Option.isSome_iff_ne_none] using hnone), List.length_cons]
      have := ih (images + 1)
      omega
    · have := ih (images + 1)
      omega

theorem imageOf_eq_some_iff {item : Ref} {id : Id} :
    imageOf s item = some id ↔ (s.objects item).key = .image id := by
  rw [imageOf]
  split <;> simp_all

section

variable [DecidableEq Id]

/-- What `update` keeps. -/
theorem items_update (entries : List Ref) (s : History Id) :
    (update entries s).items.Sublist entries ∧ (update entries s).items.length ≤ HISTORY_LIMIT ∧
      ((update entries s).items.filter fun item ↦ (imageOf s item).isSome).length ≤ IMAGE_LIMIT := by
  refine ⟨(List.take_sublist _ _).trans (fewImages_sublist s 0 entries), List.length_take_le _ _, ?_⟩
  have hsub : ((fewImages s 0 entries).take HISTORY_LIMIT).Sublist (fewImages s 0 entries) := List.take_sublist _ _
  exact (hsub.filter _).length_le.trans (count_fewImages s 0 entries)

/-- What is discarded is of no entry that is kept. -/
theorem mem_discarded_update {entries : List Ref} {id : Id} (h : id ∈ (update entries s).discarded) :
    id ∈ s.discarded ∨ ∀ item ∈ (update entries s).items, imageOf s item ≠ some id := by
  rcases List.mem_append.1 h with hgone | hbefore
  · right
    obtain ⟨item, hitem, hid⟩ := List.mem_filterMap.1 hgone
    have hnot := (List.mem_filter.1 hitem).2
    intro other hother hsame
    rw [Bool.not_eq_true', List.any_eq_false] at hnot
    refine hnot other hother ?_
    rw [imageOf_eq_some_iff] at hid hsame
    rw [sameEntry, decide_eq_true_iff, hid, hsame]
  · exact .inl hbefore

/-- An update with entries in order. -/
theorem update_orderly {entries : List Ref}
    (hsorted : entries.Pairwise fun a b ↦ (s.objects b).copied ≤ (s.objects a).copied)
    (hdifferent : entries.Pairwise fun a b ↦ (s.objects a).key ≠ (s.objects b).key) :
    Orderly (update entries s) := by
  obtain ⟨hsub, hfew, himages⟩ := items_update entries s
  exact ⟨hsorted.sublist hsub, hdifferent.sublist hsub, hfew, himages⟩

theorem update_kept {entries : List Ref} (h : ∀ item ∈ entries, Kept s item) :
    ∀ item ∈ (update entries s).items, Kept (update entries s) item := by
  intro item hitem
  obtain ⟨hlanded, hlatest, hback, hfile⟩ := h item ((items_update entries s).1.subset hitem)
  refine ⟨hlanded, hlatest, hback, fun id hid hdiscarded ↦ ?_⟩
  rcases mem_discarded_update hdiscarded with hbefore | hother
  · exact hfile id hid hbefore
  · exact hother item hitem hid

/-! ## Landing -/

/-- With a number, and logged. -/
def numbered (entry : Ref) (key : Key Id) (mimeType : String) (copied began : ℕ) (s : History Id) : History Id :=
  { s with
    objects := Function.update s.objects entry ⟨key, mimeType, copied⟩
    log := { s.log with landings := ⟨key, copied, began⟩ :: s.log.landings } }

/-- An entry is put among the others, behind the newer ones. -/
theorem land_cases (h : Orderly s) (entry : Ref) (key : Key Id) (mimeType : String) (copied began : ℕ) :
    ∃ before behind, (before ++ behind).Sublist s.items ∧
      (∀ item ∈ before ++ behind, item ≠ entry ∧ (s.objects item).key ≠ key) ∧
      (∀ item ∈ before, copied ≤ (s.objects item).copied) ∧ (∀ item ∈ behind, (s.objects item).copied ≤ copied) ∧
      land entry key mimeType copied began s =
        update (before ++ entry :: behind) (numbered entry key mimeType copied began s) := by
  let t := numbered entry key mimeType copied began s
  let others := s.items.filter fun item ↦ !sameEntry t item entry
  let newer := others.filter fun item ↦ (t.objects item).copied > (t.objects entry).copied
  have hself : t.objects entry = ⟨key, mimeType, copied⟩ := Function.update_self _ _ _
  have hother : ∀ item ∈ others, item ≠ entry ∧ (s.objects item).key ≠ key ∧ t.objects item = s.objects item := by
    intro item hitem
    have hnot := (List.mem_filter.1 hitem).2
    rw [Bool.not_eq_true', sameEntry, decide_eq_false_iff_not, hself] at hnot
    have hne : item ≠ entry := by
      rintro rfl
      exact hnot (by rw [hself])
    have hsame : t.objects item = s.objects item := Function.update_of_ne hne _ _
    rw [hsame] at hnot
    exact ⟨hne, hnot, hsame⟩
  have hsub : others.Sublist s.items := List.filter_sublist
  have hsorted : others.Pairwise fun a b ↦ decide ((t.objects b).copied > (t.objects entry).copied) = true →
      decide ((t.objects a).copied > (t.objects entry).copied) = true := by
    refine (h.sorted.sublist hsub).imp_of_mem fun {a b} ha hb hle hlt ↦ ?_
    rw [decide_eq_true_iff] at hlt ⊢
    rw [(hother a ha).2.2]
    rw [(hother b hb).2.2] at hlt
    exact lt_of_lt_of_le hlt hle
  obtain ⟨happend, hbehind⟩ := filter_append_drop hsorted
  have hmem : ∀ {item}, item ∈ newer ++ others.drop newer.length → item ∈ others := fun hitem ↦ happend ▸ hitem
  refine ⟨newer, others.drop newer.length, happend.symm ▸ hsub, fun item hitem ↦ ?_, fun item hitem ↦ ?_,
    fun item hitem ↦ ?_, rfl⟩
  · exact ⟨(hother item (hmem hitem)).1, (hother item (hmem hitem)).2.1⟩
  · obtain ⟨hitem', hlt⟩ := List.mem_filter.1 hitem
    rw [decide_eq_true_iff, hself, (hother item hitem').2.2] at hlt
    exact hlt.le
  · have hnot := hbehind item hitem
    rw [decide_eq_false_iff_not, hself, (hother item (hmem (List.mem_append_right _ hitem))).2.2] at hnot
    exact not_lt.1 hnot

/-- **Whatever lands**, the history is in order. -/
theorem land_orderly (h : Orderly s) (entry : Ref) (key : Key Id) (mimeType : String) (copied began : ℕ) :
    Orderly (land entry key mimeType copied began s) := by
  obtain ⟨before, behind, hsub, hother, hbefore, hbehind, hland⟩ := land_cases h entry key mimeType copied began
  have hself : (numbered entry key mimeType copied began s).objects entry = ⟨key, mimeType, copied⟩ :=
    Function.update_self _ _ _
  have hsame : ∀ item ∈ before ++ behind,
      (numbered entry key mimeType copied began s).objects item = s.objects item := fun item hitem ↦
    Function.update_of_ne (hother item hitem).1 _ _
  have hleft : ∀ {item}, item ∈ before → item ∈ before ++ behind := List.mem_append_left _
  have hright : ∀ {item}, item ∈ behind → item ∈ before ++ behind := List.mem_append_right _
  have hsorted := h.sorted.sublist hsub
  have hdifferent := h.different.sublist hsub
  rw [List.pairwise_append] at hsorted hdifferent
  rw [hland]
  refine update_orderly ?_ ?_
  · rw [List.pairwise_append, List.pairwise_cons]
    refine ⟨?_, ⟨fun item hitem ↦ ?_, ?_⟩, fun a ha b hb ↦ ?_⟩
    · exact hsorted.1.imp_of_mem fun {a b} ha hb hle ↦ by rwa [hsame a (hleft ha), hsame b (hleft hb)]
    · rw [hself, hsame item (hright hitem)]
      exact hbehind item hitem
    · exact hsorted.2.1.imp_of_mem fun {a b} ha hb hle ↦ by rwa [hsame a (hright ha), hsame b (hright hb)]
    · rw [hsame a (hleft ha)]
      rcases List.mem_cons.1 hb with rfl | hb
      · rw [hself]
        exact hbefore a ha
      · rw [hsame b (hright hb)]
        exact hsorted.2.2 a ha b hb
  · rw [List.pairwise_append, List.pairwise_cons]
    refine ⟨?_, ⟨fun item hitem ↦ ?_, ?_⟩, fun a ha b hb ↦ ?_⟩
    · exact hdifferent.1.imp_of_mem fun {a b} ha hb hne ↦ by rwa [hsame a (hleft ha), hsame b (hleft hb)]
    · rw [hself, hsame item (hright hitem)]
      exact (hother item (hright hitem)).2.symm
    · exact hdifferent.2.1.imp_of_mem fun {a b} ha hb hne ↦ by rwa [hsame a (hright ha), hsame b (hright hb)]
    · rw [hsame a (hleft ha)]
      rcases List.mem_cons.1 hb with rfl | hb
      · rw [hself]
        exact (hother a (hleft ha)).2
      · rw [hsame b (hright hb)]
        exact hdifferent.2.2 a ha b hb

/-- **What lands in time** leaves every entry as it should be. -/
theorem land_kept (h : Consistent s) (hin : InTime s key copied began)
    (hfile : ∀ id, key = .image id → id ∉ s.discarded) (entry : Ref) (mimeType : String) :
    ∀ item ∈ (land entry key mimeType copied began s).items, Kept (land entry key mimeType copied began s) item := by
  obtain ⟨before, behind, hsub, hother, -, -, hland⟩ := land_cases h.orderly entry key mimeType copied began
  have hself : (numbered entry key mimeType copied began s).objects entry = ⟨key, mimeType, copied⟩ :=
    Function.update_self _ _ _
  rw [hland]
  refine update_kept fun item hitem ↦ ?_
  have hcases : item = entry ∨ item ∈ before ++ behind := by
    rcases List.mem_append.1 hitem with hitem | hitem
    · exact .inr (List.mem_append_left _ hitem)
    · rcases List.mem_cons.1 hitem with hitem | hitem
      · exact .inl hitem
      · exact .inr (List.mem_append_right _ hitem)
  rcases hcases with rfl | hitem
  · refine ⟨?_, ?_, ?_, ?_⟩
    · exact ⟨_, List.mem_cons_self, by rw [hself], by rw [hself]⟩
    · intro landing hlanding hkey
      rw [hself] at hkey ⊢
      rcases List.mem_cons.1 hlanding with rfl | hlanding
      · exact le_rfl
      · exact hin.latest landing hlanding hkey
    · intro removal hremoval hkey
      rw [hself] at hkey ⊢
      rcases hin.back with ⟨there, hthere, hsame⟩ | hafter
      · obtain ⟨landing, hlanding, hlandingkey, hlt⟩ :=
          (h.kept there hthere).back removal hremoval (hkey.trans hsame.symm)
        exact ⟨landing, List.mem_cons_of_mem _ hlanding, hlandingkey.trans hsame, hlt⟩
      · exact ⟨_, List.mem_cons_self, rfl, hafter removal hremoval hkey⟩
    · intro id hid
      rw [imageOf_eq_some_iff, hself] at hid
      exact hfile id hid
  · have hsame : (numbered entry key mimeType copied began s).objects item = s.objects item :=
      Function.update_of_ne (hother item hitem).1 _ _
    obtain ⟨⟨landing, hlanding, hkey, hcopied⟩, hlatest, hback, hkept⟩ := h.kept item (hsub.subset hitem)
    refine ⟨?_, ?_, ?_, ?_⟩
    · rw [hsame]
      exact ⟨landing, List.mem_cons_of_mem _ hlanding, hkey, hcopied⟩
    · intro landing hlanding hkey
      rw [hsame] at hkey ⊢
      rcases List.mem_cons.1 hlanding with rfl | hlanding
      · exact absurd hkey.symm (hother item hitem).2
      · exact hlatest landing hlanding hkey
    · intro removal hremoval hkey
      rw [hsame] at hkey ⊢
      obtain ⟨landing, hlanding, hlandingkey, hlt⟩ := hback removal hremoval hkey
      exact ⟨landing, List.mem_cons_of_mem _ hlanding, hlandingkey, hlt⟩
    · intro id hid
      rw [imageOf_eq_some_iff, hsame, ← imageOf_eq_some_iff] at hid
      exact hkept id hid

theorem land_consistent (h : Consistent s) (hin : InTime s key copied began)
    (hfile : ∀ id, key = .image id → id ∉ s.discarded) (entry : Ref) (mimeType : String) :
    Consistent (land entry key mimeType copied began s) :=
  ⟨land_orderly h.orderly entry key mimeType copied began, land_kept h hin hfile entry mimeType⟩

/-! ## Taking out -/

theorem removing_orderly {entries taken : List Ref} (h : Orderly s) (hsub : entries.Sublist s.items) :
    Orderly (update entries (removing taken s)) :=
  update_orderly (h.sorted.sublist hsub) (h.different.sublist hsub)

/-- What is left when other entries are taken out. -/
theorem removing_consistent {entries taken : List Ref} (h : Consistent s) (hsub : entries.Sublist s.items)
    (hother : ∀ item ∈ entries, ∀ other ∈ taken, (s.objects other).key ≠ (s.objects item).key) :
    Consistent (update entries (removing taken s)) := by
  refine ⟨removing_orderly h.orderly hsub, update_kept fun item hitem ↦ ?_⟩
  obtain ⟨hlanded, hlatest, hback, hfile⟩ := h.kept item (hsub.subset hitem)
  refine ⟨hlanded, hlatest, fun removal hremoval hkey ↦ ?_, hfile⟩
  rcases List.mem_append.1 hremoval with htaken | hremoval
  · obtain ⟨other, hmem, rfl⟩ := List.mem_map.1 htaken
    exact absurd hkey (hother item hitem other hmem)
  · exact hback removal hremoval hkey

end

/-! ## What an act does -/

/-- The number of the copy that is going on. -/
def Pending.number : Pending Id → ℕ
  | .text copied _ => copied
  | .image _ copied _ => copied
  | .thumbnail _ _ copied _ => copied
  | .saving _ _ copied _ => copied
  | .loading _ _ => 0

/-- No number is ahead of the counter, and nothing was taken out from `limit` on. -/
structure Past (limit : ℕ) (s : History Id) : Prop where
  landings : ∀ landing ∈ s.log.landings, landing.copied ≤ s.copies
  pending : ∀ p ∈ s.pending, p.number ≤ s.copies
  removals : ∀ removal ∈ s.log.removals, removal.time < limit

/-- Nothing of the history changes. -/
structure Quiet (s s' : History Id) : Prop where
  items : s'.items = s.items
  objects : s'.objects = s.objects
  log : s'.log = s.log
  discarded : s'.discarded ⊆ s.discarded
  copies : s.copies ≤ s'.copies
  pending : ∀ p ∈ s'.pending, p.number ≤ s'.copies

variable {limit index : ℕ} {p : Pending Id}

theorem Past.quiet (h : Past limit s) : Quiet s s :=
  ⟨rfl, rfl, rfl, List.Subset.refl _, le_rfl, h.pending⟩

theorem Quiet.ended (h : Quiet s s') (index : ℕ) : Quiet s (ended index s') :=
  ⟨h.items, h.objects, h.log, h.discarded, h.copies, fun p hp ↦ h.pending p (List.eraseIdx_subset hp)⟩

/-- The next number is taken. -/
theorem Quiet.counted (h : Quiet s s') : Quiet s { s' with copies := s'.copies + 1 } :=
  ⟨h.items, h.objects, h.log, h.discarded, h.copies.trans (Nat.le_succ _),
    fun p hp ↦ (h.pending p hp).trans (Nat.le_succ _)⟩

theorem Quiet.begun (h : Quiet s s') (hp : p.number ≤ s'.copies) :
    Quiet s { s' with pending := p :: s'.pending } := by
  refine ⟨h.items, h.objects, h.log, h.discarded, h.copies, fun q hq ↦ ?_⟩
  rcases List.mem_cons.1 hq with rfl | hq
  · exact hp
  · exact h.pending q hq

theorem Quiet.made (h : Quiet s s') (made : ℕ) : Quiet s { s' with made := made } :=
  ⟨h.items, h.objects, h.log, h.discarded, h.copies, h.pending⟩

theorem Quiet.imageOf_eq (h : Quiet s s') (item : Ref) : imageOf s' item = imageOf s item := by
  rw [imageOf, imageOf, h.objects]

theorem Orderly.quiet (h : Orderly s) (hquiet : Quiet s s') : Orderly s' := by
  obtain ⟨hsorted, hdifferent, hfew, himages⟩ := h
  have himage : (fun item ↦ (imageOf s' item).isSome) = fun item ↦ (imageOf s item).isSome :=
    funext fun item ↦ by rw [hquiet.imageOf_eq]
  refine ⟨?_, ?_, ?_, ?_⟩
  · rwa [hquiet.items, hquiet.objects]
  · rwa [hquiet.items, hquiet.objects]
  · rwa [hquiet.items]
  · rwa [hquiet.items, himage]

theorem Consistent.quiet (h : Consistent s) (hquiet : Quiet s s') : Consistent s' := by
  refine ⟨h.orderly.quiet hquiet, fun item hitem ↦ ?_⟩
  rw [hquiet.items] at hitem
  obtain ⟨hlanded, hlatest, hback, hfile⟩ := h.kept item hitem
  refine ⟨?_, ?_, ?_, fun id hid hmem ↦ ?_⟩
  · rwa [hquiet.log, hquiet.objects]
  · rwa [hquiet.log, hquiet.objects]
  · rwa [hquiet.log, hquiet.objects]
  · rw [hquiet.imageOf_eq] at hid
    exact hfile id hid (hquiet.discarded hmem)

theorem InTime.quiet (h : InTime s key copied began) (hquiet : Quiet s s') : InTime s' key copied began := by
  obtain ⟨hlatest, hback⟩ := h
  refine ⟨?_, ?_⟩
  · rwa [hquiet.log]
  · rwa [hquiet.items, hquiet.objects, hquiet.log]

/-- What is put now is in time. -/
theorem Past.inTime (h : Past s.log.time s) (key : Key Id) : InTime s key (s.copies + 1) s.log.time :=
  ⟨fun landing hlanding _ ↦ (h.landings landing hlanding).trans (Nat.le_succ _),
    .inr fun removal hremoval _ ↦ h.removals removal hremoval⟩

/-- Time goes on. -/
def later (s : History Id) : History Id := { s with log := { s.log with time := s.log.time + 1 } }

theorem Past.later (h : Past (s.log.time + 1) s') (htime : s'.log.time = s.log.time) :
    Past (Clipboard.later s').log.time (Clipboard.later s') := by
  refine ⟨h.landings, h.pending, fun removal hremoval ↦ ?_⟩
  have hlimit := h.removals removal hremoval
  rw [← htime] at hlimit
  exact hlimit

theorem Orderly.later (h : Orderly s) : Orderly (Clipboard.later s) := ⟨h.sorted, h.different, h.few, h.fewImages⟩

theorem Consistent.later (h : Consistent s) : Consistent (Clipboard.later s) :=
  ⟨h.orderly.later, fun item hitem ↦
    have hkept := h.kept item hitem
    ⟨hkept.landed, hkept.latest, hkept.back, hkept.file⟩⟩

theorem past_start : Past (start : History Id).log.time (start : History Id) := by
  refine ⟨?_, ?_, ?_⟩ <;> rintro _ ⟨⟩

theorem orderly_start : Orderly (start : History Id) :=
  ⟨List.Pairwise.nil, List.Pairwise.nil, Nat.zero_le _, Nat.zero_le _⟩

theorem consistent_start : Consistent (start : History Id) := ⟨orderly_start, fun item hitem ↦ by cases hitem⟩

section

variable [DecidableEq Id] (checksum : Bytes → Id)

/-- What an act does to the history: nothing, or something lands, or entries are taken out. -/
inductive Does (a : Act) (s : History Id) : History Id → Prop
  | nothing {s' : History Id} (quiet : Quiet s s') : Does a s s'
  | lands {s' : History Id} (entry : Ref) (key : Key Id) (mimeType : String) (copied began : ℕ) (quiet : Quiet s s')
      (number : copied ≤ s'.copies)
      (timely : Consistent s → Timely checksum a s →
        InTime s key copied began ∧ ∀ id, key = .image id → id ∉ s'.discarded) :
      Does a s (land entry key mimeType copied began s')
  | takes (entries taken : List Ref) (sublist : entries.Sublist s.items)
      (other : Orderly s → ∀ item ∈ entries, ∀ other ∈ taken, (s.objects other).key ≠ (s.objects item).key) :
      Does a s (update entries (removing taken s))

theorem act_does (h : Past s.log.time s) (a : Act) : Does checksum a s (act checksum s a) := by
  have hquiet := h.quiet
  have hnumber : ∀ {index : ℕ} {p : Pending Id}, s.pending[index]? = some p → p.number ≤ s.copies :=
    fun hp ↦ h.pending _ (List.mem_of_getElem? hp)
  cases a with
  | copy mimeTypes =>
    rw [act, ownerChanged]
    split
    · exact .nothing hquiet
    · split
      · exact .nothing (hquiet.counted.begun le_rfl)
      · split
        · exact .nothing (hquiet.counted.begun le_rfl)
        · exact .nothing hquiet.counted
  | textRead index text =>
    rw [act]
    split
    · rename_i copied began hp
      cases text with
      | none => exact .nothing (hquiet.ended index)
      | some text =>
        rw [textRead]
        cases hblank : text.all is_blank with
        | true => exact .nothing (hquiet.ended index)
        | false =>
          refine .lands _ _ _ _ _ ((hquiet.ended index).made _) (hnumber hp) fun _ htimely ↦ ?_
          exact ⟨htimely copied began hp hblank, fun id hkey ↦ by cases hkey⟩
    · exact .nothing hquiet
  | imageRead index bytes =>
    rw [act]
    split
    · rename_i mimeType copied began hp
      cases bytes with
      | none => exact .nothing (hquiet.ended index)
      | some bytes =>
        have hcopied : copied ≤ s.copies := hnumber hp
        rw [imageRead]
        split
        · rw [keepImage]
          split
          · rename_i known hknown
            have hmem : known ∈ s.items := List.mem_of_find?_eq_some hknown
            have hfound := List.find?_some hknown
            rw [decide_eq_true_iff] at hfound
            have hkey : (s.objects known).key = .image (checksum bytes) := imageOf_eq_some_iff.1 hfound
            refine .lands _ _ _ _ _ (hquiet.ended index) hcopied fun hconsistent htimely ↦ ⟨?_, fun id hid ↦ ?_⟩
            · rw [show ((Clipboard.ended index s).objects known).key = .image (checksum bytes) from hkey]
              exact htimely mimeType copied began hp ⟨known, hmem, hkey⟩
            · exact (hconsistent.kept known hmem).file id (imageOf_eq_some_iff.2 hid)
          · exact .nothing ((hquiet.ended index).begun hcopied)
        · exact .nothing (hquiet.ended index)
    · exact .nothing hquiet
  | thumbnail index made =>
    rw [act]
    split
    · rename_i id mimeType copied began hp
      have hcopied : copied ≤ s.copies := hnumber hp
      split
      · exact .nothing ((hquiet.ended index).begun hcopied)
      · exact .nothing (hquiet.ended index)
    · exact .nothing hquiet
  | saved index done =>
    rw [act]
    split
    · rename_i id mimeType copied began hp
      cases done with
      | false => exact .nothing (hquiet.ended index)
      | true =>
        have hfiles : Quiet s { ended index s with discarded := s.discarded.filter (· ≠ id) } :=
          ⟨rfl, rfl, rfl, List.filter_sublist.subset, le_rfl, (hquiet.ended index).pending⟩
        refine .lands _ _ _ _ _ (hfiles.made _) (hnumber hp) fun _ htimely ↦ ?_
        refine ⟨htimely id mimeType copied began hp, fun other hkey hmem ↦ ?_⟩
        cases hkey
        exact of_decide_eq_true (List.mem_filter.1 hmem).2 rfl
    · exact .nothing hquiet
  | put entry =>
    rw [act]
    split
    · rw [put]
      split
      · rename_i htext
        refine .lands _ _ _ _ _ hquiet.counted le_rfl fun _ _ ↦ ⟨h.inTime _, fun id hkey ↦ ?_⟩
        have hsome : imageOf s entry = some id := imageOf_eq_some_iff.2 hkey
        rw [hsome] at htext
        cases htext
      · exact .nothing (hquiet.begun (Nat.zero_le _))
    · exact .nothing hquiet
  | loaded index done =>
    rw [act]
    split
    · rename_i entry began hp
      cases done with
      | false => exact .nothing (hquiet.ended index)
      | true =>
        refine .lands _ _ _ _ _ (hquiet.ended index).counted le_rfl fun _ htimely ↦ ?_
        obtain ⟨hin, hfile⟩ := htimely entry began hp
        exact ⟨hin, fun id hkey ↦ hfile id (imageOf_eq_some_iff.2 hkey)⟩
    · exact .nothing hquiet
  | remove entry =>
    refine .takes _ _ List.filter_sublist fun horderly item hitem other hmem ↦ ?_
    obtain ⟨hitem, hne⟩ := List.mem_filter.1 hitem
    obtain ⟨hmem, heq⟩ := List.mem_filter.1 hmem
    rw [decide_eq_true_iff] at hne heq
    have hsymm : Std.Symm fun a b : Ref ↦ (s.objects a).key ≠ (s.objects b).key := ⟨fun _ _ h ↦ h.symm⟩
    exact horderly.different.forall hmem hitem (heq ▸ Ne.symm hne)
  | clear => exact .takes [] s.items (List.nil_sublist _) fun _ item hitem ↦ by cases hitem

/-! ## Runs -/

variable {checksum}

theorem Does.past {a : Act} (h : Does checksum a s s') (hpast : Past s.log.time s) : Past (s.log.time + 1) s' := by
  have hremovals : ∀ removal ∈ s.log.removals, removal.time < s.log.time + 1 := fun removal hremoval ↦
    (hpast.removals removal hremoval).trans (Nat.lt_succ_self _)
  cases h with
  | nothing hquiet =>
    refine ⟨fun landing hlanding ↦ ?_, hquiet.pending, ?_⟩
    · rw [hquiet.log] at hlanding
      exact (hpast.landings landing hlanding).trans hquiet.copies
    · rwa [hquiet.log]
  | @lands s₁ entry key mimeType copied began hquiet hnumber htimely =>
    refine ⟨fun landing hlanding ↦ ?_, hquiet.pending, ?_⟩
    · rcases List.mem_cons.1 hlanding with rfl | hlanding
      · exact hnumber
      · rw [hquiet.log] at hlanding
        exact (hpast.landings landing hlanding).trans hquiet.copies
    · intro removal hremoval
      have hbefore : removal ∈ s₁.log.removals := hremoval
      rw [hquiet.log] at hbefore
      exact hremovals removal hbefore
  | takes entries taken hsub hother =>
    refine ⟨hpast.landings, hpast.pending, fun removal hremoval ↦ ?_⟩
    rcases List.mem_append.1 hremoval with htaken | hremoval
    · obtain ⟨item, -, rfl⟩ := List.mem_map.1 htaken
      exact Nat.lt_succ_self _
    · exact hremovals removal hremoval

theorem Does.orderly {a : Act} (h : Does checksum a s s') (horderly : Orderly s) : Orderly s' := by
  cases h with
  | nothing hquiet => exact horderly.quiet hquiet
  | lands entry key mimeType copied began hquiet hnumber htimely =>
    exact land_orderly (horderly.quiet hquiet) entry key mimeType copied began
  | takes entries taken hsub hother => exact removing_orderly horderly hsub

theorem Does.consistent {a : Act} (h : Does checksum a s s') (hconsistent : Consistent s)
    (htimely : Timely checksum a s) : Consistent s' := by
  cases h with
  | nothing hquiet => exact hconsistent.quiet hquiet
  | lands entry key mimeType copied began hquiet hnumber hin =>
    obtain ⟨hin, hfile⟩ := hin hconsistent htimely
    exact land_consistent (hconsistent.quiet hquiet) (hin.quiet hquiet) hfile entry mimeType
  | takes entries taken hsub hother => exact removing_consistent hconsistent hsub (hother hconsistent.orderly)

theorem Does.time {a : Act} (h : Does checksum a s s') : s'.log.time = s.log.time := by
  cases h with
  | nothing hquiet => rw [hquiet.log]
  | @lands s₁ entry key mimeType copied began hquiet hnumber htimely =>
    have htime : s₁.log.time = s.log.time := by rw [hquiet.log]
    exact htime
  | takes entries taken hsub hother => rfl

theorem past_step (checksum : Bytes → Id) (a : Act) (h : Past s.log.time s) :
    Past (step checksum a s).log.time (step checksum a s) :=
  ((act_does checksum h a).past h).later (act_does checksum h a).time

/-- **In every run** the history is in order, without two of the same entry, and within its limits. -/
theorem orderly_run (checksum : Bytes → Id) (run : List Act) :
    Runs.Throughout (step checksum) Orderly run start := by
  refine (Runs.throughout_of_step (P := fun s ↦ Past s.log.time s ∧ Orderly s) (fun a s h ↦ ?_) run
    ⟨past_start, orderly_start⟩).mono fun _ h ↦ h.2
  exact ⟨past_step checksum a h.1, ((act_does checksum h.1 a).orderly h.2).later⟩

end

/-- An image is copied, and taken out while it is loaded to be put again. -/
def lateRun : List Act :=
  [.copy ["image/png"], .imageRead 0 (some [1]), .thumbnail 0 true, .saved 0 true, .put 0, .remove 0, .loaded 0 true]

theorem lateRun_result : (Runs.after (step (List.length : Bytes → ℕ)) lateRun start).items = [0] ∧
    imageOf (Runs.after (step (List.length : Bytes → ℕ)) lateRun start) 0 = some 1 ∧
    (Runs.after (step (List.length : Bytes → ℕ)) lateRun start).discarded = [1] := by
  decide +kernel

end Clipboard

import Mathlib.Data.List.Basic
import Mathlib.Data.List.Nodup
import Mathlib.Data.List.Zip
import Mathlib.Order.MinMax

/-!
# An IMAP server

What an IMAP server promises about the messages it holds.  A mailbox gives each message a UID when
the message comes in and never gives that UID again, so a pair of a mailbox and a UID names one
message or none (`Server.Names`), whatever happens to the mailbox later (`Later.names`).  A message
that moves gets a new UID in the mailbox it moves to; the server may tell which (`copyUid`).

`mail` tells messages apart across mailboxes; no client sees it.
-/

set_option autoImplicit false

namespace Mailman

inductive Flag
  | seen
  | flagged
  | answered
  deriving DecidableEq, Repr

/-- The flags of a message on the server. -/
structure Marks where
  seen : Bool
  flagged : Bool
  answered : Bool
  deleted : Bool
  deriving DecidableEq, Repr

def Marks.set (marks : Marks) (flag : Flag) (value : Bool) : Marks :=
  match flag with
  | .seen => { marks with seen := value }
  | .flagged => { marks with flagged := value }
  | .answered => { marks with answered := value }

/-- A message in a mailbox. -/
structure Entry where
  mailbox : Nat
  uid : Nat
  mail : Nat
  marks : Marks
  deriving DecidableEq, Repr

/-- `moves` and `uidplus` are the extensions of these names. -/
structure Server where
  entries : List Entry
  uidNext : Nat → Nat
  moves : Bool
  uidplus : Bool
  fresh : ∀ e ∈ entries, e.uid < uidNext e.mailbox

namespace Server

variable (s : Server)

/-- Whether a command on these UIDs of a mailbox is about the message. -/
def picks (mailbox : Nat) (uids : List Nat) (e : Entry) : Bool :=
  e.mailbox = mailbox ∧ e.uid ∈ uids

theorem picks_iff {mailbox : Nat} {uids : List Nat} {e : Entry} :
    picks mailbox uids e ↔ e.mailbox = mailbox ∧ e.uid ∈ uids := by
  rw [picks, decide_eq_true_eq]

/-- The messages a pair names, by their `mail`. -/
def named (mailbox uid : Nat) : List Nat :=
  (s.entries.filter (picks mailbox [uid])).map (·.mail)

theorem mem_named {mailbox uid mail : Nat} : mail ∈ s.named mailbox uid ↔
    ∃ e ∈ s.entries, e.mailbox = mailbox ∧ e.uid = uid ∧ e.mail = mail := by
  rw [named, List.mem_map]
  constructor
  · rintro ⟨e, he, rfl⟩
    obtain ⟨he, hp⟩ := List.mem_filter.1 he
    obtain ⟨hm, hu⟩ := picks_iff.1 hp
    exact ⟨e, he, hm, List.mem_singleton.1 hu, rfl⟩
  · rintro ⟨e, he, hm, hu, rfl⟩
    exact ⟨e, List.mem_filter.2 ⟨he, picks_iff.2 ⟨hm, List.mem_singleton.2 hu⟩⟩, rfl⟩

/-! ## Commands -/

/-- Change the flags of some messages. -/
def change (mailbox : Nat) (uids : List Nat) (update : Marks → Marks) : Server :=
  { s with
    entries := s.entries.map fun e ↦
      if picks mailbox uids e then { e with marks := update e.marks } else e
    fresh := by
      intro e he
      obtain ⟨f, hf, rfl⟩ := List.mem_map.1 he
      by_cases hp : picks mailbox uids f
      · rw [if_pos hp]
        exact s.fresh f hf
      · rw [if_neg hp]
        exact s.fresh f hf }

/-- Remove the messages that meet a condition. -/
def purge (gone : Entry → Bool) : Server :=
  { s with
    entries := s.entries.filter (!gone ·)
    fresh := fun e he ↦ s.fresh e (List.mem_filter.1 he).1 }

/-- `UID STORE +FLAGS` or `-FLAGS`. -/
def storeFlag (mailbox : Nat) (uids : List Nat) (flag : Flag) (value : Bool) : Server :=
  s.change mailbox uids (·.set flag value)

/-- Mark the messages as deleted and remove them.  Without UIDPLUS everything in the mailbox that is
marked goes with them. -/
def expunge (mailbox : Nat) (uids : List Nat) : Server :=
  (s.change mailbox uids ({ · with deleted := true })).purge fun e ↦
    e.mailbox = mailbox ∧ e.marks.deleted ∧ (s.uidplus → e.uid ∈ uids)

/-- The messages a copy is about, each with its copy. -/
def copies (mailbox : Nat) (uids : List Nat) (target : Nat) : List (Entry × Entry) :=
  (s.entries.filter (picks mailbox uids)).zipIdx.map fun (e, i) ↦
    (e, { e with mailbox := target, uid := s.uidNext target + i })

/-- The server tells which UIDs the copies got. -/
def copyUid (mailbox : Nat) (uids : List Nat) (target : Nat) : List (Nat × Nat) :=
  (s.copies mailbox uids target).map fun (e, copy) ↦ (e.uid, copy.uid)

/-- The UIDs that were given to the copies are not given again. -/
def uidNextAfter (mailbox : Nat) (uids : List Nat) (target : Nat) (m : Nat) : Nat :=
  if m = target then s.uidNext target + (s.copies mailbox uids target).length else s.uidNext m

theorem mem_copies {mailbox target : Nat} {uids : List Nat} {e copy : Entry}
    (h : (e, copy) ∈ s.copies mailbox uids target) :
    (e ∈ s.entries ∧ picks mailbox uids e) ∧
      ∃ i < (s.copies mailbox uids target).length,
        copy = { e with mailbox := target, uid := s.uidNext target + i } ∧
          (s.entries.filter (picks mailbox uids))[i]? = some e := by
  rw [copies, List.mem_map] at h
  obtain ⟨⟨f, i⟩, hf, heq⟩ := h
  obtain ⟨rfl, rfl⟩ := Prod.mk.inj heq
  have hi := List.mem_zipIdx_iff_getElem?.1 hf
  refine ⟨List.mem_filter.1 (List.mem_of_getElem? hi), i, ?_, rfl, hi⟩
  rw [copies, List.length_map, List.length_zipIdx]
  exact (List.getElem?_eq_some_iff.1 hi).1

theorem exists_copy {mailbox target : Nat} {uids : List Nat} {e : Entry} (he : e ∈ s.entries)
    (hp : picks mailbox uids e) : ∃ copy, (e, copy) ∈ s.copies mailbox uids target := by
  obtain ⟨i, hi⟩ := List.mem_iff_getElem?.1 (List.mem_filter.2 ⟨he, hp⟩)
  refine ⟨{ e with mailbox := target, uid := s.uidNext target + i }, ?_⟩
  rw [copies, List.mem_map]
  exact ⟨(e, i), List.mem_zipIdx_iff_getElem?.2 hi, rfl⟩

theorem copy_uid_lt {mailbox target : Nat} {uids : List Nat} {e copy : Entry}
    (h : (e, copy) ∈ s.copies mailbox uids target) :
    copy.uid < s.uidNextAfter mailbox uids target copy.mailbox := by
  obtain ⟨-, i, hi, rfl, -⟩ := s.mem_copies h
  rw [uidNextAfter, if_pos rfl]
  exact Nat.add_lt_add_left hi _

theorem uidNext_le (mailbox : Nat) (uids : List Nat) (target m : Nat) :
    s.uidNext m ≤ s.uidNextAfter mailbox uids target m := by
  rw [uidNextAfter]
  by_cases hm : m = target
  · rw [if_pos hm, hm]
    exact Nat.le_add_right _ _
  · rw [if_neg hm]

/-- Add the copies to those of the messages that stay. -/
def copyTo (mailbox : Nat) (uids : List Nat) (target : Nat) (stays : Entry → Bool) : Server :=
  { s with
    entries := s.entries.filter stays ++ (s.copies mailbox uids target).map (·.2)
    uidNext := s.uidNextAfter mailbox uids target
    fresh := by
      intro e he
      rcases List.mem_append.1 he with he | he
      · exact (s.fresh e (List.mem_filter.1 he).1).trans_le (s.uidNext_le mailbox uids target _)
      · obtain ⟨⟨f, copy⟩, hf, rfl⟩ := List.mem_map.1 he
        exact s.copy_uid_lt hf }

/-- `UID MOVE`, or `UID COPY` and then the removal of the originals. -/
def moveMessages (mailbox : Nat) (uids : List Nat) (target : Nat) : Server :=
  if s.moves then s.copyTo mailbox uids target (!picks mailbox uids ·)
  else (s.copyTo mailbox uids target fun _ ↦ true).expunge mailbox uids

/-! ## What happens elsewhere -/

/-- A message comes in, from another client or from outside. -/
def arrive (mailbox mail : Nat) (marks : Marks) : Server :=
  { s with
    entries := s.entries ++ [⟨mailbox, s.uidNext mailbox, mail, marks⟩]
    uidNext := fun m ↦ if m = mailbox then s.uidNext m + 1 else s.uidNext m
    fresh := by
      intro e he
      rcases List.mem_append.1 he with he | he
      · by_cases hm : e.mailbox = mailbox
        · rw [if_pos hm]
          exact Nat.lt_succ_of_lt (s.fresh e he)
        · rw [if_neg hm]
          exact s.fresh e he
      · rw [List.mem_singleton.1 he, if_pos rfl]
        exact Nat.lt_succ_self _ }

/-- A number above all the UIDs, once they are given out anew. -/
def above (uid : Nat → Nat) (entries : List Entry) : Nat :=
  entries.foldr (fun e most ↦ max (uid e.uid + 1) most) 0

theorem lt_above {uid : Nat → Nat} {entries : List Entry} {e : Entry} (he : e ∈ entries) :
    uid e.uid < above uid entries := by
  induction entries with
  | nil => cases he
  | cons first entries ih =>
    rcases List.mem_cons.1 he with rfl | he
    · exact Nat.le_max_left _ _
    · exact (ih he).trans_le (Nat.le_max_right _ _)

/-- The mailbox gives out its UIDs anew. -/
def renumber (mailbox : Nat) (uid : Nat → Nat) : Server :=
  { s with
    entries := s.entries.map fun e ↦
      if e.mailbox = mailbox then { e with uid := uid e.uid } else e
    uidNext := fun m ↦
      if m = mailbox then above uid s.entries else s.uidNext m
    fresh := by
      intro e he
      obtain ⟨f, hf, rfl⟩ := List.mem_map.1 he
      by_cases hm : f.mailbox = mailbox
      · rw [if_pos hm, if_pos hm]
        exact lt_above hf
      · rw [if_neg hm, if_neg hm]
        exact s.fresh f hf }

/-! ## What a pair names -/

/-- The UID was given out in the mailbox, and what it names can only be this message. -/
def Names (mailbox uid mail : Nat) : Prop :=
  uid < s.uidNext mailbox ∧
    ∀ e ∈ s.entries, e.mailbox = mailbox → e.uid = uid → e.mail = mail

instance (mailbox uid mail : Nat) : Decidable (s.Names mailbox uid mail) :=
  inferInstanceAs (Decidable (_ ∧ _))

variable {s}

theorem Names.named {mailbox uid mail : Nat} (h : s.Names mailbox uid mail) :
    ∀ x ∈ s.named mailbox uid, x = mail := by
  intro x hx
  obtain ⟨e, he, hm, hu, rfl⟩ := s.mem_named.1 hx
  exact h.2 e he hm hu

/-- What a server can become while its mailboxes keep their numbering. -/
structure Later (s t : Server) : Prop where
  next : ∀ m, s.uidNext m ≤ t.uidNext m
  old : ∀ e ∈ t.entries, e.uid < s.uidNext e.mailbox →
    ∃ f ∈ s.entries, f.mailbox = e.mailbox ∧ f.uid = e.uid ∧ f.mail = e.mail

/-- **A pair keeps its meaning.** -/
theorem Later.names {t : Server} (h : s.Later t) {mailbox uid mail : Nat}
    (hs : s.Names mailbox uid mail) : t.Names mailbox uid mail := by
  refine ⟨hs.1.trans_le (h.next mailbox), fun e he hm hu ↦ ?_⟩
  obtain ⟨f, hf, hfm, hfu, hfx⟩ := h.old e he (by rw [hm, hu]; exact hs.1)
  rw [← hfx]
  exact hs.2 f hf (hfm.trans hm) (hfu.trans hu)

theorem Later.refl (s : Server) : s.Later s :=
  ⟨fun _ ↦ le_rfl, fun e he _ ↦ ⟨e, he, rfl, rfl, rfl⟩⟩

theorem Later.trans {t u : Server} (h : s.Later t) (h' : t.Later u) : s.Later u := by
  refine ⟨fun m ↦ (h.next m).trans (h'.next m), fun e he hu ↦ ?_⟩
  obtain ⟨f, hf, hfm, hfu, hfx⟩ := h'.old e he (hu.trans_le (h.next _))
  obtain ⟨g, hg, hgm, hgu, hgx⟩ := h.old f hf (by rw [hfm, hfu]; exact hu)
  exact ⟨g, hg, hgm.trans hfm, hgu.trans hfu, hgx.trans hfx⟩

theorem later_change (mailbox : Nat) (uids : List Nat) (update : Marks → Marks) :
    s.Later (s.change mailbox uids update) := by
  refine ⟨fun _ ↦ le_rfl, fun e he _ ↦ ?_⟩
  obtain ⟨f, hf, rfl⟩ := List.mem_map.1 he
  refine ⟨f, hf, ?_⟩
  by_cases hp : picks mailbox uids f
  · rw [if_pos hp]
    exact ⟨rfl, rfl, rfl⟩
  · rw [if_neg hp]
    exact ⟨rfl, rfl, rfl⟩

theorem later_storeFlag (s : Server) (mailbox : Nat) (uids : List Nat) (flag : Flag) (value : Bool) :
    s.Later (s.storeFlag mailbox uids flag value) := later_change _ _ _

theorem later_purge (gone : Entry → Bool) : s.Later (s.purge gone) :=
  ⟨fun _ ↦ le_rfl, fun e he _ ↦ ⟨e, (List.mem_filter.1 he).1, rfl, rfl, rfl⟩⟩

theorem later_expunge (s : Server) (mailbox : Nat) (uids : List Nat) : s.Later (s.expunge mailbox uids) :=
  (later_change _ _ _).trans (later_purge _)

theorem later_copyTo (mailbox : Nat) (uids : List Nat) (target : Nat) (stays : Entry → Bool) :
    s.Later (s.copyTo mailbox uids target stays) := by
  refine ⟨s.uidNext_le mailbox uids target, fun e he hu ↦ ?_⟩
  rcases List.mem_append.1 he with he | he
  · exact ⟨e, (List.mem_filter.1 he).1, rfl, rfl, rfl⟩
  · obtain ⟨⟨f, copy⟩, hf, rfl⟩ := List.mem_map.1 he
    obtain ⟨-, i, -, rfl, -⟩ := s.mem_copies hf
    exact absurd hu (Nat.not_lt.2 (Nat.le_add_right _ _))

theorem later_moveMessages (mailbox : Nat) (uids : List Nat) (target : Nat) :
    s.Later (s.moveMessages mailbox uids target) := by
  rw [moveMessages]
  by_cases hm : s.moves
  · rw [if_pos hm]
    exact later_copyTo _ _ _ _
  · rw [if_neg hm]
    exact (later_copyTo _ _ _ _).trans (later_expunge _ _ _)

theorem later_arrive (mailbox mail : Nat) (marks : Marks) :
    s.Later (s.arrive mailbox mail marks) := by
  refine ⟨fun m ↦ ?_, fun e he hu ↦ ?_⟩
  · by_cases hm : m = mailbox
    · exact (Nat.le_succ _).trans_eq (if_pos hm).symm
    · exact (if_neg hm).ge
  · rcases List.mem_append.1 he with he | he
    · exact ⟨e, he, rfl, rfl, rfl⟩
    · rw [List.mem_singleton.1 he] at hu
      exact absurd hu (lt_irrefl _)

/-- Two copies with one UID are copies of one message. -/
theorem copies_inj {mailbox target : Nat} {uids : List Nat} {e copy f copy' : Entry}
    (h : (e, copy) ∈ s.copies mailbox uids target) (h' : (f, copy') ∈ s.copies mailbox uids target)
    (huid : copy.uid = copy'.uid) : e = f := by
  obtain ⟨-, i, -, rfl, hi⟩ := s.mem_copies h
  obtain ⟨-, j, -, rfl, hj⟩ := s.mem_copies h'
  obtain rfl : i = j := Nat.add_left_cancel huid
  exact Option.some.inj (hi.symm.trans hj)

/-- **A copy is the same message**: the UID it got names what the UID of the original named. -/
theorem names_copyTo {mailbox target mail : Nat} {uids : List Nat} {stays : Entry → Bool}
    {e copy : Entry} (h : (e, copy) ∈ s.copies mailbox uids target)
    (hs : s.Names mailbox e.uid mail) :
    (s.copyTo mailbox uids target stays).Names target copy.uid mail := by
  obtain ⟨⟨he, hp⟩, i, hi, rfl, -⟩ := s.mem_copies h
  refine ⟨s.copy_uid_lt h, fun f hf hm hu ↦ ?_⟩
  rcases List.mem_append.1 hf with hf | hf
  · have := s.fresh f (List.mem_filter.1 hf).1
    rw [hm, hu] at this
    exact absurd this (Nat.not_lt.2 (Nat.le_add_right _ _))
  · obtain ⟨⟨g, copy⟩, hg, rfl⟩ := List.mem_map.1 hf
    obtain rfl := copies_inj hg h hu
    obtain ⟨-, j, -, rfl, -⟩ := s.mem_copies hg
    exact hs.2 g he (picks_iff.1 hp).1 rfl

theorem names_moveMessages {mailbox target mail : Nat} {uids : List Nat} {e copy : Entry}
    (h : (e, copy) ∈ s.copies mailbox uids target) (hs : s.Names mailbox e.uid mail) :
    (s.moveMessages mailbox uids target).Names target copy.uid mail := by
  rw [moveMessages]
  by_cases hm : s.moves
  · rw [if_pos hm]
    exact names_copyTo h hs
  · rw [if_neg hm]
    exact (later_expunge _ _ _).names (names_copyTo h hs)

/-- The other mailboxes keep their numbering. -/
theorem names_renumber {mailbox m n mail : Nat} {uid : Nat → Nat} (hm : m ≠ mailbox)
    (h : s.Names m n mail) : (s.renumber mailbox uid).Names m n mail := by
  refine ⟨h.1.trans_eq (if_neg hm).symm, fun e he hem hen ↦ ?_⟩
  obtain ⟨f, hf, rfl⟩ := List.mem_map.1 he
  by_cases hfm : f.mailbox = mailbox
  · rw [if_pos hfm] at hem
    exact absurd (hem.symm.trans hfm) hm
  · rw [if_neg hfm] at hem hen ⊢
    exact h.2 f hf hem hen

/-! ## Which messages a command is about -/

/-- Messages are told apart by `mail`, and by their mailbox and UID. -/
structure Distinct (s : Server) : Prop where
  mails : (s.entries.map (·.mail)).Nodup
  pairs : (s.entries.map fun e ↦ (e.mailbox, e.uid)).Nodup

theorem Distinct.eq_of_mail (h : s.Distinct) {e f : Entry} (he : e ∈ s.entries)
    (hf : f ∈ s.entries) (hmail : e.mail = f.mail) : e = f :=
  List.inj_on_of_nodup_map h.mails he hf hmail

theorem Distinct.eq_of_pair (h : s.Distinct) {e f : Entry} (he : e ∈ s.entries)
    (hf : f ∈ s.entries) (hm : e.mailbox = f.mailbox) (hu : e.uid = f.uid) : e = f :=
  List.inj_on_of_nodup_map h.pairs he hf (Prod.ext hm hu)

/-- An expunge of these messages takes no other: the server has UIDPLUS, or nothing else in the
mailbox is marked as deleted. -/
def spares (s : Server) (mailbox : Nat) (uids : List Nat) : Bool :=
  s.uidplus || s.entries.all fun e ↦
    e.mailbox ≠ mailbox ∨ e.marks.deleted = false ∨ e.uid ∈ uids

theorem expunge_entries {mailbox : Nat} {uids : List Nat} (h : s.spares mailbox uids) :
    (s.expunge mailbox uids).entries = s.entries.filter (!picks mailbox uids ·) := by
  change List.filter _ (List.map _ s.entries) = _
  rw [List.filter_map]
  have hkept : ∀ e ∈ s.entries.filter (!picks mailbox uids ·),
      (if picks mailbox uids e then { e with marks := { e.marks with deleted := true } } else e) =
        e := by
    intro e he
    have := (List.mem_filter.1 he).2
    rw [if_neg (by simpa using this)]
  refine Eq.trans ?_ ((List.map_congr_left hkept).trans (List.map_id _))
  congr 1
  refine List.filter_congr fun e he ↦ ?_
  by_cases hp : picks mailbox uids e
  · obtain ⟨hm, hu⟩ := picks_iff.1 hp
    simp [hp, hm, hu]
  · have hgone : ¬(e.mailbox = mailbox ∧ e.marks.deleted ∧ (s.uidplus → e.uid ∈ uids)) := by
      rintro ⟨hm, hd, hu⟩
      refine hp (picks_iff.2 ⟨hm, ?_⟩)
      rcases Bool.or_eq_true_iff.1 h with hplus | hall
      · exact hu hplus
      · have := of_decide_eq_true (List.all_eq_true.1 hall e he)
        rcases this with hne | hd' | hu'
        · exact absurd hm hne
        · rw [hd] at hd'
          cases hd'
        · exact hu'
    rw [Function.comp_apply, if_neg hp, Bool.eq_false_iff.2 hp]
    exact congrArg (!·) (decide_eq_false hgone)

theorem mem_copies_snd {mailbox target : Nat} {uids : List Nat} {copy : Entry}
    (h : copy ∈ (s.copies mailbox uids target).map (·.2)) : copy.mailbox = target := by
  obtain ⟨⟨e, copy⟩, he, rfl⟩ := List.mem_map.1 h
  obtain ⟨-, i, -, rfl, -⟩ := s.mem_copies he
  rfl

theorem moveMessages_entries {mailbox target : Nat} {uids : List Nat} (hne : target ≠ mailbox)
    (h : s.moves ∨ s.spares mailbox uids) :
    (s.moveMessages mailbox uids target).entries =
      s.entries.filter (!picks mailbox uids ·) ++ (s.copies mailbox uids target).map (·.2) := by
  rw [moveMessages]
  by_cases hm : s.moves
  · rw [if_pos hm]
    rfl
  rw [if_neg hm]
  have hspares : (s.copyTo mailbox uids target fun _ ↦ true).spares mailbox uids := by
    have hs := h.resolve_left hm
    rw [spares, Bool.or_eq_true] at hs ⊢
    refine hs.imp_right fun hall ↦ List.all_eq_true.2 fun e he ↦ ?_
    rcases List.mem_append.1 he with he | he
    · exact List.all_eq_true.1 hall e (List.mem_filter.1 he).1
    · exact decide_eq_true (.inl (mem_copies_snd he ▸ hne))
  rw [expunge_entries hspares, copyTo, List.filter_append]
  congr 1
  · rw [List.filter_filter]
    simp
  · refine List.filter_eq_self.2 fun e he ↦ ?_
    have hem : e.mailbox ≠ mailbox := mem_copies_snd he ▸ hne
    simp [picks, hem]

/-- The copies, without the UIDs they got. -/
theorem copies_map {β : Type*} (f : Entry → β) (mailbox : Nat) (uids : List Nat) (target : Nat)
    (hf : ∀ (e : Entry) i, f { e with mailbox := target, uid := i } = f { e with mailbox := target }) :
    ((s.copies mailbox uids target).map (·.2)).map f =
      (s.entries.filter (picks mailbox uids)).map fun e : Entry ↦ f { e with mailbox := target } := by
  rw [copies, List.map_map, List.map_map]
  refine (List.map_congr_left (g := (fun e : Entry ↦ f { e with mailbox := target }) ∘ Prod.fst)
    fun p _ ↦ hf p.1 _).trans ?_
  rw [← List.map_map, List.zipIdx_map_fst]

theorem mem_named_storeFlag {m n mail : Nat} (h : mail ∈ s.named m n) (mailbox : Nat)
    (uids : List Nat) (flag : Flag) (value : Bool) :
    mail ∈ (s.storeFlag mailbox uids flag value).named m n := by
  obtain ⟨e, he, hm, hu, rfl⟩ := s.mem_named.1 h
  refine (mem_named _).2 ⟨_, List.mem_map_of_mem he, ?_⟩
  by_cases hp : picks mailbox uids e
  · rw [if_pos hp]
    exact ⟨hm, hu, rfl⟩
  · rw [if_neg hp]
    exact ⟨hm, hu, rfl⟩

theorem distinct_storeFlag (h : s.Distinct) (mailbox : Nat) (uids : List Nat) (flag : Flag)
    (value : Bool) : (s.storeFlag mailbox uids flag value).Distinct := by
  have hsame : ∀ {β : Type} (f : Entry → β), (∀ (e : Entry) marks, f { e with marks } = f e) →
      (s.storeFlag mailbox uids flag value).entries.map f = s.entries.map f := by
    intro β f hf
    change List.map f (List.map _ s.entries) = _
    rw [List.map_map]
    refine List.map_congr_left fun e _ ↦ ?_
    rw [Function.comp_apply]
    by_cases hp : picks mailbox uids e
    · rw [if_pos hp]
      exact hf e _
    · rw [if_neg hp]
  refine ⟨?_, ?_⟩
  · rw [hsame _ fun _ _ ↦ rfl]
    exact h.mails
  · rw [hsame _ fun _ _ ↦ rfl]
    exact h.pairs

theorem distinct_expunge (h : s.Distinct) {mailbox : Nat} {uids : List Nat}
    (hs : s.spares mailbox uids) : (s.expunge mailbox uids).Distinct := by
  refine ⟨?_, ?_⟩
  · rw [expunge_entries hs]
    exact (List.filter_sublist.map _).nodup h.mails
  · rw [expunge_entries hs]
    exact (List.filter_sublist.map _).nodup h.pairs

theorem distinct_moveMessages (h : s.Distinct) {mailbox target : Nat} {uids : List Nat}
    (hne : target ≠ mailbox) (hs : s.moves ∨ s.spares mailbox uids) :
    (s.moveMessages mailbox uids target).Distinct := by
  refine ⟨?_, ?_⟩
  · rw [moveMessages_entries hne hs, List.map_append, copies_map _ _ _ _ fun _ _ ↦ rfl,
      ← List.map_append]
    refine (List.Perm.nodup_iff (List.Perm.map _ ?_)).2 h.mails
    exact (List.perm_append_comm).trans (List.filter_append_perm _ _)
  · rw [moveMessages_entries hne hs, List.map_append, List.nodup_append]
    refine ⟨(List.filter_sublist.map _).nodup h.pairs, ?_, ?_⟩
    · have hnext : ((s.copies mailbox uids target).map (·.2)).map (fun e ↦ (e.mailbox, e.uid)) =
          (((s.entries.filter (picks mailbox uids)).zipIdx.map (·.2)).map
            fun i ↦ (target, s.uidNext target + i)) := by
        rw [copies, List.map_map, List.map_map, List.map_map]
        rfl
      rw [hnext, List.zipIdx_map_snd]
      exact (List.nodup_range' ..).map fun i j hij ↦ Nat.add_left_cancel (Prod.mk.inj hij).2
    · intro a ha b hb heq
      obtain ⟨e, he, rfl⟩ := List.mem_map.1 ha
      obtain ⟨copy, hcopy, rfl⟩ := List.mem_map.1 hb
      obtain ⟨⟨f, copy⟩, hf, rfl⟩ := List.mem_map.1 hcopy
      obtain ⟨-, i, -, rfl, -⟩ := s.mem_copies hf
      obtain ⟨hm, hu⟩ := Prod.mk.inj heq
      have hfresh := s.fresh e (List.mem_filter.1 he).1
      rw [show e.mailbox = target from hm, show e.uid = s.uidNext target + i from hu] at hfresh
      exact absurd hfresh (Nat.not_lt.2 (Nat.le_add_right _ _))

end Server

end Mailman

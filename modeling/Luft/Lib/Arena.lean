import Mathlib.Data.List.Nodup
import Mathlib.Data.List.Induction

/-!
# Forests in an arena

Nodes that are told by their places list their children and know their parents.  `Forest v roots` says that
what is live is a forest with these roots: each live node is reached from a root, and is listed once, by its
parent, unless it is a root.

A forest stays one when a root goes and leaves its children as roots (`Forest.release`), when a leaf comes
(`Forest.fresh`), when children are cut off their parent (`Forest.cut`) and when roots are put under one
(`Forest.link`).  In a forest with one root there is one way to each node (`Forest.way_unique`).
-/

set_option autoImplicit false

namespace Arena

variable {ι ν : Type*}

/-- What the nodes say. -/
structure View (ι ν : Type*) where
  live : ι → Prop
  children : ι → List ι
  parent : ι → ι
  label : ι → ν

/-- What is reached from some nodes through children. -/
inductive Reach (v : View ι ν) (roots : List ι) : ι → Prop
  | root {n : ι} (h : n ∈ roots) : Reach v roots n
  | child {p n : ι} (hp : Reach v roots p) (hn : n ∈ v.children p) : Reach v roots n

/-- The live nodes are a forest, and children of one node have different labels. -/
structure Forest (v : View ι ν) (roots : List ι) : Prop where
  nodup : roots.Nodup
  roots_live : ∀ {r}, r ∈ roots → v.live r
  child_live : ∀ {p n}, n ∈ v.children p → v.live n
  dead : ∀ {n}, ¬ v.live n → v.children n = []
  parent : ∀ {p n}, n ∈ v.children p → v.parent n = p
  not_root : ∀ {p n}, n ∈ v.children p → n ∉ roots
  labels : ∀ p, ((v.children p).map v.label).Nodup
  reach : ∀ {n}, v.live n → Reach v roots n

/-- What is reached from a root without coming by one node. -/
inductive Off (v : View ι ν) (root c : ι) : ι → Prop
  | root (h : root ≠ c) : Off v root c root
  | child {p n : ι} (hp : Off v root c p) (hn : n ∈ v.children p) (hne : n ≠ c) : Off v root c n

/-- A way from a root to a node, through children. -/
inductive Way (v : View ι ν) (root : ι) : List ι → ι → Prop
  | nil : Way v root [] root
  | concat {l : List ι} {p n : ι} (h : Way v root l p) (hn : n ∈ v.children p) : Way v root (l ++ [n]) n

variable {v w : View ι ν} {roots : List ι} {c n p root : ι}

theorem Reach.mono {more : List ι} (h : Reach v roots n) (hsub : roots ⊆ more) : Reach v more n := by
  induction h with
  | root h => exact .root (hsub h)
  | child _ hn ih => exact .child ih hn

/-- Where each node on the way lists what it did, the same is reached. -/
theorem Reach.of_children (h : Reach v roots n)
    (hsame : ∀ p, Reach v roots p → ∀ n ∈ v.children p, n ∈ w.children p) : Reach w roots n := by
  induction h with
  | root h => exact .root h
  | child hp hn ih => exact .child ih (hsame _ hp _ hn)

theorem Off.ne (h : Off v root c n) : n ≠ c := by
  cases h with
  | root h => exact h
  | child _ _ h => exact h

theorem Off.reach (h : Off v root c n) : Reach v [root] n := by
  induction h with
  | root => exact .root (List.mem_singleton_self root)
  | child _ hn _ ih => exact .child ih hn

/-- Where the other nodes list what they did, the same is reached. -/
theorem Off.of_children (h : Off v root c n) (hsame : ∀ p, p ≠ c → ∀ n ∈ v.children p, n ≠ c → n ∈ w.children p) :
    Off w root c n := by
  induction h with
  | root h => exact .root h
  | child hp hn hne ih => exact .child ih (hsame _ hp.ne _ hn hne) hne

theorem Way.reach {l : List ι} (h : Way v root l n) : Reach v [root] n := by
  induction h with
  | nil => exact .root (List.mem_singleton_self root)
  | concat _ hn ih => exact .child ih hn

theorem Way.exists (h : Reach v [root] n) : ∃ l, Way v root l n := by
  induction h with
  | root h =>
    rw [List.mem_singleton.1 h]
    exact ⟨[], .nil⟩
  | child _ hn ih =>
    obtain ⟨l, hl⟩ := ih
    exact ⟨l ++ [_], .concat hl hn⟩

namespace Forest

theorem perm {more : List ι} (h : Forest v roots) (hperm : roots.Perm more) : Forest v more where
  nodup := hperm.nodup h.nodup
  roots_live := fun hr ↦ h.roots_live (hperm.mem_iff.2 hr)
  child_live := h.child_live
  dead := h.dead
  parent := h.parent
  not_root := fun hn hroot ↦ h.not_root hn (hperm.mem_iff.2 hroot)
  labels := h.labels
  reach := fun hn ↦ (h.reach hn).mono hperm.subset

theorem children_nodup (h : Forest v roots) (p : ι) : (v.children p).Nodup := (h.labels p).of_map

theorem parent_live (h : Forest v roots) (hn : n ∈ v.children p) : v.live p := by
  by_contra hdead
  rw [h.dead hdead] at hn
  exact List.not_mem_nil hn

/-- A node that is no root is listed by its parent. -/
theorem mem_children (h : Forest v roots) (hlive : v.live n) (hroot : n ∉ roots) : n ∈ v.children (v.parent n) := by
  cases h.reach hlive with
  | root hn => exact absurd hn hroot
  | child _ hn => exact h.parent hn ▸ hn

/-! ## Ways -/

theorem way_unique (h : Forest v [root]) {l l' : List ι} (hl : Way v root l n) (hl' : Way v root l' n) : l = l' := by
  induction hl generalizing l' with
  | nil =>
    generalize hn : root = n at hl'
    cases hl' with
    | nil => rfl
    | concat _ hmem => exact absurd (hn ▸ List.mem_singleton_self root) (h.not_root hmem)
  | concat hway hmem ih =>
    cases hl' with
    | nil => exact absurd (List.mem_singleton_self root) (h.not_root hmem)
    | concat hway' hmem' =>
      rw [← h.parent hmem, h.parent hmem'] at ih
      rw [ih hway']

/-- **One way** leads to each live node. -/
theorem existsUnique_way (h : Forest v [root]) (hlive : v.live n) : ∃! l, Way v root l n := by
  obtain ⟨l, hl⟩ := Way.exists (h.reach hlive)
  exact ⟨l, hl, fun _ hl' ↦ h.way_unique hl' hl⟩

theorem way_through {l before after : List ι} (h : Way v root l n) (hl : l = before ++ c :: after) :
    Way v root (before ++ [c]) c := by
  induction h generalizing after with
  | nil => exact absurd hl.symm (List.append_ne_nil_of_right_ne_nil _ (List.cons_ne_nil _ _))
  | concat hway hmem ih =>
    rcases List.eq_nil_or_concat' after with rfl | ⟨after, d, rfl⟩
    · obtain ⟨rfl, heq⟩ := List.append_inj' hl rfl
      obtain rfl := (List.cons.inj heq).1
      exact .concat hway hmem
    · rw [← List.cons_append, ← List.append_assoc] at hl
      exact ih (List.append_inj' hl rfl).1

/-- **The parent** of a node is reached without coming by it. -/
theorem off_parent (h : Forest v [root]) (hc : c ∈ v.children p) : Off v root c p := by
  obtain ⟨l, hl⟩ := Way.exists (h.reach (h.parent_live hc))
  have hroot : root ≠ c := fun heq ↦ h.not_root hc (heq ▸ List.mem_singleton_self root)
  have hnot : c ∉ l := by
    intro hmem
    obtain ⟨before, after, rfl⟩ := List.append_of_mem hmem
    have heq := h.way_unique (way_through hl rfl) (.concat hl hc)
    have hlength := congrArg List.length heq
    simp only [List.length_append, List.length_cons, List.length_nil] at hlength
    omega
  clear hc
  induction hl with
  | nil => exact .root hroot
  | concat _ hn ih =>
    rw [List.mem_append, not_or, List.mem_singleton] at hnot
    exact .child (ih hnot.1) hn (Ne.symm hnot.2)

/-- What is reached without coming by a node is reached without coming by its children. -/
theorem off_child (h : Forest v [root]) (hn : n ∈ v.children c) {m : ι} (hm : Off v root c m) : Off v root n m := by
  induction hm with
  | root => exact .root fun heq ↦ h.not_root hn (heq ▸ List.mem_singleton_self root)
  | child hp hmem _ ih =>
    refine .child ih hmem ?_
    rintro rfl
    exact hp.ne ((h.parent hmem).symm.trans (h.parent hn))

/-- A node is reached, whatever it lists itself. -/
theorem reach_self (h : Forest v [root]) (hlive : v.live c) (hsame : ∀ p, p ≠ c → w.children p = v.children p) :
    Reach w [root] c := by
  by_cases hroot : c ∈ [root]
  · exact .root hroot
  · have hchild := h.mem_children hlive hroot
    have hoff := h.off_parent hchild
    have hparent : Off w root c (v.parent c) := hoff.of_children fun p hp n hn _ ↦ hsame p hp ▸ hn
    exact .child hparent.reach (hsame _ hoff.ne ▸ hchild)

/-! ## Changes -/

/-- A root is reached from no other. -/
theorem ne_of_reach (h : Forest v (c :: roots)) {starts : List ι} (hsub : starts ⊆ roots) (hn : Reach v starts n) : n ≠ c := by
  rintro rfl
  cases hn with
  | root hmem => exact (List.nodup_cons.1 h.nodup).1 (hsub hmem)
  | child _ hmem => exact h.not_root hmem List.mem_cons_self

/-- **A root goes**, and its children are roots. -/
theorem release (h : Forest v (c :: roots)) (hlive : ∀ n, w.live n ↔ v.live n ∧ n ≠ c) (hgone : w.children c = [])
    (hkeep : ∀ n, n ≠ c → w.children n = v.children n ∧ w.parent n = v.parent n ∧ w.label n = v.label n) :
    Forest w (v.children c ++ roots) := by
  have hmem {p n : ι} (hn : n ∈ w.children p) : n ∈ v.children p ∧ p ≠ c ∧ n ≠ c := by
    by_cases hp : p = c
    · rw [hp, hgone] at hn
      exact absurd hn List.not_mem_nil
    · rw [(hkeep p hp).1] at hn
      refine ⟨hn, hp, ?_⟩
      rintro rfl
      exact h.not_root hn List.mem_cons_self
  obtain ⟨hc, hnodup⟩ := List.nodup_cons.1 h.nodup
  constructor
  · refine List.nodup_append.2 ⟨h.children_nodup c, hnodup, fun a ha b hb heq ↦ ?_⟩
    exact h.not_root ha (List.mem_cons_of_mem _ (heq ▸ hb))
  · intro r hr
    rw [hlive]
    rcases List.mem_append.1 hr with hr | hr
    · refine ⟨h.child_live hr, ?_⟩
      rintro rfl
      exact h.not_root hr List.mem_cons_self
    · exact ⟨h.roots_live (List.mem_cons_of_mem _ hr), fun heq ↦ hc (heq ▸ hr)⟩
  · intro p n hn
    exact (hlive n).2 ⟨h.child_live (hmem hn).1, (hmem hn).2.2⟩
  · intro n hdead
    by_cases hn : n = c
    · rw [hn, hgone]
    · rw [(hkeep n hn).1]
      exact h.dead fun hv ↦ hdead ((hlive n).2 ⟨hv, hn⟩)
  · intro p n hn
    rw [(hkeep n (hmem hn).2.2).2.1]
    exact h.parent (hmem hn).1
  · intro p n hn hroot
    rcases List.mem_append.1 hroot with hroot | hroot
    · exact (hmem hn).2.1 ((h.parent (hmem hn).1).symm.trans (h.parent hroot))
    · exact h.not_root (hmem hn).1 (List.mem_cons_of_mem _ hroot)
  · intro p
    by_cases hp : p = c
    · rw [hp, hgone]
      exact List.nodup_nil
    · have hmap : (w.children p).map w.label = (v.children p).map v.label := by
        rw [(hkeep p hp).1]
        refine List.map_congr_left fun n hn ↦ (hkeep n ?_).2.2
        rintro rfl
        exact h.not_root hn List.mem_cons_self
      rw [hmap]
      exact h.labels p
  · intro n hn
    rw [hlive] at hn
    have hreach := h.reach hn.1
    have hne := hn.2
    clear hn
    induction hreach with
    | root hroot => exact .root (List.mem_append_right _ ((List.mem_cons.1 hroot).resolve_left hne))
    | @child p n _ hn ih =>
      by_cases hp : p = c
      · exact .root (List.mem_append_left _ (hp ▸ hn))
      · exact .child (ih hp) ((hkeep p hp).1 ▸ hn)

/-- **A leaf comes**, as a root. -/
theorem fresh (h : Forest v roots) (hdead : ¬ v.live c) (hlive : ∀ n, w.live n ↔ v.live n ∨ n = c)
    (hleaf : w.children c = [])
    (hkeep : ∀ n, n ≠ c → w.children n = v.children n ∧ w.parent n = v.parent n ∧ w.label n = v.label n) :
    Forest w (c :: roots) := by
  have hmem {p n : ι} (hn : n ∈ w.children p) : n ∈ v.children p ∧ p ≠ c ∧ n ≠ c := by
    by_cases hp : p = c
    · rw [hp, hleaf] at hn
      exact absurd hn List.not_mem_nil
    · rw [(hkeep p hp).1] at hn
      refine ⟨hn, hp, ?_⟩
      rintro rfl
      exact hdead (h.child_live hn)
  constructor
  · exact List.nodup_cons.2 ⟨fun hc ↦ hdead (h.roots_live hc), h.nodup⟩
  · intro r hr
    rw [hlive]
    exact (List.mem_cons.1 hr).symm.imp_left h.roots_live
  · intro p n hn
    exact (hlive n).2 (.inl (h.child_live (hmem hn).1))
  · intro n hn
    rw [hlive, not_or] at hn
    rw [(hkeep n hn.2).1]
    exact h.dead hn.1
  · intro p n hn
    rw [(hkeep n (hmem hn).2.2).2.1]
    exact h.parent (hmem hn).1
  · intro p n hn hroot
    rcases List.mem_cons.1 hroot with hroot | hroot
    · exact (hmem hn).2.2 hroot
    · exact h.not_root (hmem hn).1 hroot
  · intro p
    by_cases hp : p = c
    · rw [hp, hleaf]
      exact List.nodup_nil
    · have hmap : (w.children p).map w.label = (v.children p).map v.label := by
        rw [(hkeep p hp).1]
        refine List.map_congr_left fun n hn ↦ (hkeep n ?_).2.2
        rintro rfl
        exact hdead (h.child_live hn)
      rw [hmap]
      exact h.labels p
  · intro n hn
    rcases (hlive n).1 hn with hn | rfl
    · refine (h.reach hn).of_children (fun p hp m hm ↦ ?_) |>.mono (List.subset_cons_self c roots)
      rwa [(hkeep p ?_).1]
      rintro rfl
      exact hdead (h.parent_live hm)
    · exact .root List.mem_cons_self

/-- **Children are cut off**, and are roots. -/
theorem cut (h : Forest v roots) {gone rest : List ι} (hsplit : (v.children p).Perm (gone ++ rest))
    (hlive : ∀ n, w.live n ↔ v.live n) (hrest : w.children p = rest)
    (hother : ∀ n, n ≠ p → w.children n = v.children n) (hparent : w.parent = v.parent) (hlabel : w.label = v.label) :
    Forest w (gone ++ roots) := by
  have hmem {q n : ι} (hn : n ∈ w.children q) : n ∈ v.children q := by
    by_cases hq : q = p
    · rw [hq, hrest] at hn
      rw [hq]
      exact hsplit.mem_iff.2 (List.mem_append_right _ hn)
    · rwa [hother q hq] at hn
  have hgone {n : ι} (hn : n ∈ gone) : n ∈ v.children p := hsplit.mem_iff.2 (List.mem_append_left _ hn)
  have hnodup := List.nodup_append.1 (hsplit.nodup (h.children_nodup p))
  constructor
  · exact List.nodup_append.2 ⟨hnodup.1, h.nodup, fun a ha b hb heq ↦ h.not_root (hgone ha) (heq ▸ hb)⟩
  · intro r hr
    rw [hlive]
    exact (List.mem_append.1 hr).elim (fun hr ↦ h.child_live (hgone hr)) h.roots_live
  · intro q n hn
    exact (hlive n).2 (h.child_live (hmem hn))
  · intro n hdead
    have hnil := h.dead fun hv ↦ hdead ((hlive n).2 hv)
    refine List.eq_nil_iff_forall_not_mem.2 fun m hm ↦ ?_
    have hmem := hmem hm
    rw [hnil] at hmem
    exact List.not_mem_nil hmem
  · intro q n hn
    rw [hparent]
    exact h.parent (hmem hn)
  · intro q n hn hroot
    rcases List.mem_append.1 hroot with hroot | hroot
    · obtain rfl : q = p := (h.parent (hmem hn)).symm.trans (h.parent (hgone hroot))
      exact hnodup.2.2 n hroot n (hrest ▸ hn) rfl
    · exact h.not_root (hmem hn) hroot
  · intro q
    rw [hlabel]
    by_cases hq : q = p
    · rw [hq, hrest]
      have hlabels := (hsplit.map v.label).nodup (h.labels p)
      rw [List.map_append] at hlabels
      exact (List.nodup_append.1 hlabels).2.1
    · rw [hother q hq]
      exact h.labels q
  · intro n hn
    have hreach := h.reach ((hlive n).1 hn)
    clear hn
    induction hreach with
    | root hroot => exact .root (List.mem_append_right _ hroot)
    | @child q n _ hn ih =>
      by_cases hq : q = p
      · rw [hq] at hn ih
        rcases List.mem_append.1 (hsplit.mem_iff.1 hn) with hn | hn
        · exact .root (List.mem_append_left _ hn)
        · exact .child ih (hrest ▸ hn)
      · exact .child ih ((hother q hq).symm ▸ hn)

/-- **Roots are put under a node** that had no children. -/
theorem link {more : List ι} (h : Forest v (more ++ roots)) (hp : Reach v roots p) (hnone : v.children p = [])
    (hlive : ∀ n, w.live n ↔ v.live n) (hmore : w.children p = more) (hother : ∀ n, n ≠ p → w.children n = v.children n)
    (hparent : w.parent = v.parent) (hlabel : w.label = v.label) (hunder : ∀ n ∈ more, v.parent n = p)
    (hlabels : (more.map v.label).Nodup) (hplive : v.live p) : Forest w roots := by
  have hmem {q n : ι} (hn : n ∈ w.children q) : q = p ∧ n ∈ more ∨ n ∈ v.children q := by
    by_cases hq : q = p
    · rw [hq, hmore] at hn
      exact .inl ⟨hq, hn⟩
    · rw [hother q hq] at hn
      exact .inr hn
  have hkept : ∀ q, Reach v roots q → ∀ n ∈ v.children q, n ∈ w.children q := by
    intro q _ n hn
    rwa [hother q fun hq ↦ ?_]
    rw [hq, hnone] at hn
    exact List.not_mem_nil hn
  have hnodup := List.nodup_append.1 h.nodup
  constructor
  · exact hnodup.2.1
  · exact fun hr ↦ (hlive _).2 (h.roots_live (List.mem_append_right _ hr))
  · intro q n hn
    rcases hmem hn with ⟨-, hn⟩ | hn
    · exact (hlive n).2 (h.roots_live (List.mem_append_left _ hn))
    · exact (hlive n).2 (h.child_live hn)
  · intro n hdead
    rw [hlive] at hdead
    rw [hother n fun hn ↦ hdead (hn ▸ hplive)]
    exact h.dead hdead
  · intro q n hn
    rw [hparent]
    rcases hmem hn with ⟨rfl, hn⟩ | hn
    · exact hunder n hn
    · exact h.parent hn
  · intro q n hn hroot
    rcases hmem hn with ⟨-, hn⟩ | hn
    · exact hnodup.2.2 n hn n hroot rfl
    · exact h.not_root hn (List.mem_append_right _ hroot)
  · intro q
    rw [hlabel]
    by_cases hq : q = p
    · rw [hq, hmore]
      exact hlabels
    · rw [hother q hq]
      exact h.labels q
  · intro n hn
    have hreach := h.reach ((hlive n).1 hn)
    clear hn
    induction hreach with
    | root hroot =>
      rcases List.mem_append.1 hroot with hroot | hroot
      · exact .child (hp.of_children hkept) (hmore ▸ hroot)
      · exact .root hroot
    | @child q n _ hn ih =>
      refine .child ih ?_
      rwa [hother q fun hq ↦ ?_]
      rw [hq, hnone] at hn
      exact List.not_mem_nil hn

end Forest

end Arena

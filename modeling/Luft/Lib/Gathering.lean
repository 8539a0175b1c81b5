import Mathlib.Data.List.Induction
import Mathlib.Data.Nat.Notation

/-!
# Gathering items by the keys they share

Items come one after the other, each with some keys.  One of whose keys leads to a group already goes
into that group, the first such key deciding; any other starts a group of its own.  Its keys that lead
nowhere yet lead to its group from then on, and nothing that was said of a key or an item is ever
taken back (`Extends`).

Items that share a key may still be apart: a third that shares keys with both can come after them.
`order_iff` says that this is the only way in which the order matters.
-/

set_option autoImplicit false

namespace Gathering

variable {α κ : Type*} [DecidableEq κ] (keys : α → List κ)

/-- Which groups the items are in, and which the keys lead to. -/
structure Groups (α κ : Type*) where
  group : α → Option ℕ
  leads : κ → Option ℕ

def Groups.none : Groups α κ := ⟨fun _ ↦ .none, fun _ ↦ .none⟩

variable {keys}

/-- One more item is in, with a number that no group has in case it starts one. -/
structure Adds (keys : α → List κ) (a : α) (fresh : ℕ) (g g' : Groups α κ) : Prop where
  self : g'.group a = some (((keys a).findSome? g.leads).getD fresh)
  others : ∀ b, b ≠ a → g'.group b = g.group b
  leads : ∀ k, g'.leads k =
    if k ∈ keys a ∧ g.leads k = .none then some (((keys a).findSome? g.leads).getD fresh) else g.leads k

/-- All those items are in, and they alone: the numbers of the groups are below the bound, which only
grows. -/
inductive Gathered (keys : α → List κ) : List α → ℕ → Groups α κ → Prop
  | none : Gathered keys [] 0 .none
  | again {items : List α} {bound : ℕ} {g : Groups α κ} {a : α} (h : Gathered keys items bound g)
      (ha : a ∈ items) : Gathered keys (items ++ [a]) bound g
  | adds {items : List α} {bound fresh : ℕ} {g g' : Groups α κ} {a : α} (h : Gathered keys items bound g)
      (ha : a ∉ items) (hfresh : bound ≤ fresh) (hadds : Adds keys a fresh g g') :
      Gathered keys (items ++ [a]) (fresh + 1) g'

/-- Two items have a key in common. -/
def Share (keys : α → List κ) (a b : α) : Prop := ∃ k ∈ keys a, k ∈ keys b

omit [DecidableEq κ] in
theorem Share.symm {a b : α} (h : Share keys a b) : Share keys b a := by
  obtain ⟨k, ha, hb⟩ := h
  exact ⟨k, hb, ha⟩

/-- What is known of any groups that were gathered. -/
structure Known (keys : α → List κ) (items : List α) (bound : ℕ) (g : Groups α κ) : Prop where
  inside : ∀ a, (∃ n, g.group a = some n) ↔ a ∈ items
  below : ∀ a n, g.group a = some n → n < bound
  comes : ∀ k n, g.leads k = some n → ∃ a ∈ items, k ∈ keys a ∧ g.group a = some n
  leads : ∀ a ∈ items, ∀ k ∈ keys a, ∃ n, g.leads k = some n

namespace Known

variable {items : List α} {bound : ℕ} {g : Groups α κ}

theorem of_adds {g' : Groups α κ} {a : α} {fresh : ℕ} (h : Known keys items bound g) (ha : a ∉ items)
    (hfresh : bound ≤ fresh) (hadds : Adds keys a fresh g g') :
    Known keys (items ++ [a]) (fresh + 1) g' := by
  have hold {b : α} (hb : b ∈ items) : g'.group b = g.group b :=
    hadds.others b fun heq ↦ ha (heq ▸ hb)
  -- the group is a fresh one or that of an item that is in
  have hnumber : ∀ n, g'.group a = some n → n < fresh + 1 := by
    intro n hn
    rw [hadds.self] at hn
    obtain rfl := Option.some.inj hn
    rcases hfirst : (keys a).findSome? g.leads with _ | n
    · exact Nat.lt_succ_self _
    · obtain ⟨k, -, hk⟩ := List.exists_of_findSome?_eq_some hfirst
      obtain ⟨b, -, -, hb⟩ := h.comes k n hk
      exact Nat.lt_succ_of_lt (Nat.lt_of_lt_of_le (h.below b n hb) hfresh)
  constructor
  · intro b
    rw [List.mem_append, List.mem_singleton]
    by_cases hb : b = a
    · rw [hb]
      exact iff_of_true ⟨_, hadds.self⟩ (.inr rfl)
    · rw [hadds.others b hb, h.inside, or_iff_left hb]
  · intro b n hn
    by_cases hb : b = a
    · exact hnumber n (hb ▸ hn)
    · rw [hadds.others b hb] at hn
      have := h.below b n hn
      omega
  · intro k n hk
    rw [hadds.leads] at hk
    split_ifs at hk with hnew
    · refine ⟨a, List.mem_append_right _ List.mem_cons_self, hnew.1, ?_⟩
      rw [hadds.self, hk]
    · obtain ⟨b, hb, hkey, hgroup⟩ := h.comes k n hk
      exact ⟨b, List.mem_append_left _ hb, hkey, (hold hb).trans hgroup⟩
  · intro b hb k hk
    rw [hadds.leads]
    split_ifs with hnew
    · exact ⟨_, rfl⟩
    · rcases List.mem_append.1 hb with hb | hb
      · exact h.leads b hb k hk
      · rw [List.mem_singleton.1 hb] at hk
        exact Option.ne_none_iff_exists'.1 fun hnone ↦ hnew ⟨hk, hnone⟩

end Known

theorem Gathered.known {items : List α} {bound : ℕ} {g : Groups α κ} (h : Gathered keys items bound g) :
    Known keys items bound g := by
  induction h with
  | none =>
    refine ⟨fun a ↦ ?_, fun _ _ h ↦ ?_, fun _ _ h ↦ ?_, fun _ h ↦ absurd h List.not_mem_nil⟩
    · exact iff_of_false (fun ⟨_, h⟩ ↦ Option.some_ne_none _ h.symm) List.not_mem_nil
    · exact absurd h.symm (Option.some_ne_none _)
    · exact absurd h.symm (Option.some_ne_none _)
  | @again items bound g a _ ha ih =>
    have hmem (b : α) : b ∈ items ++ [a] ↔ b ∈ items := by
      rw [List.mem_append, List.mem_singleton]
      exact or_iff_left_of_imp fun hb ↦ hb ▸ ha
    refine ⟨fun b ↦ ?_, ih.below, fun k n hk ↦ ?_, fun b hb ↦ ih.leads b ((hmem b).1 hb)⟩
    · rw [ih.inside, hmem]
    · obtain ⟨b, hb, hrest⟩ := ih.comes k n hk
      exact ⟨b, (hmem b).2 hb, hrest⟩
  | adds _ ha hfresh hadds ih => exact ih.of_adds ha hfresh hadds

/-! ## Where the order does not matter -/

/-- Sharing a key goes on from item to item. -/
def Goes (keys : α → List κ) (S : α → Prop) : Prop :=
  ∀ a m b, S a → S m → S b → Share keys a m → Share keys m b → Share keys a b

/-- The groups are the items that share a key. -/
structure Shared (keys : α → List κ) (items : List α) (g : Groups α κ) : Prop where
  leads : ∀ a ∈ items, ∀ k ∈ keys a, g.leads k = g.group a
  apart : ∀ a ∈ items, ∀ b ∈ items, g.group a = g.group b → a = b ∨ Share keys a b

theorem Shared.of_adds {items : List α} {bound fresh : ℕ} {g g' : Groups α κ} {a : α}
    (hgoes : Goes keys (· ∈ items ++ [a])) (hknown : Known keys items bound g) (h : Shared keys items g)
    (ha : a ∉ items) (hfresh : bound ≤ fresh) (hadds : Adds keys a fresh g g') :
    Shared keys (items ++ [a]) g' := by
  have hself : a ∈ items ++ [a] := List.mem_append_right _ List.mem_cons_self
  have hin {b : α} (hb : b ∈ items) : b ∈ items ++ [a] := List.mem_append_left _ hb
  have hold {b : α} (hb : b ∈ items) : g'.group b = g.group b :=
    hadds.others b fun heq ↦ ha (heq ▸ hb)
  -- the keys of the item that lead somewhere lead to one group
  have hone {k : κ} {n : ℕ} (hk : k ∈ keys a) (hn : g.leads k = some n) :
      g'.group a = some n := by
    obtain ⟨b, hb, hkb, hgroup⟩ := hknown.comes k n hn
    rw [hadds.self]
    rcases hfirst : (keys a).findSome? g.leads with _ | n'
    · rw [List.findSome?_eq_none_iff.1 hfirst k hk] at hn
      exact absurd hn.symm (Option.some_ne_none _)
    · obtain ⟨k', hk', hn'⟩ := List.exists_of_findSome?_eq_some hfirst
      obtain ⟨b', hb', hkb', hgroup'⟩ := hknown.comes k' n' hn'
      obtain ⟨key, hkey, hkey'⟩ :=
        hgoes b a b' (hin hb) hself (hin hb') ⟨k, hkb, hk⟩ ⟨k', hk', hkb'⟩
      rw [Option.getD_some, ← hgroup', ← hgroup, ← h.leads b hb key hkey, ← h.leads b' hb' key hkey']
  -- an item in the group of the new one shares a key with it
  have hnear {b : α} (hb : b ∈ items) (heq : g'.group a = g.group b) : Share keys a b := by
    rw [hadds.self] at heq
    rcases hfirst : (keys a).findSome? g.leads with _ | n
    · rw [hfirst] at heq
      exact absurd (hknown.below b fresh heq.symm) (Nat.not_lt.2 hfresh)
    · rw [hfirst] at heq
      obtain ⟨k, hk, hn⟩ := List.exists_of_findSome?_eq_some hfirst
      obtain ⟨c, hc, hkc, hgroup⟩ := hknown.comes k n hn
      have hac : Share keys a c := ⟨k, hk, hkc⟩
      rcases h.apart c hc b hb (hgroup.trans heq) with rfl | hcb
      · exact hac
      · exact hgoes a c b hself (hin hc) (hin hb) hac hcb
  constructor
  · intro b hb k hk
    rw [hadds.leads]
    rcases List.mem_append.1 hb with hb | hb
    · have hlead := h.leads b hb k hk
      obtain ⟨n, hn⟩ := hknown.leads b hb k hk
      rw [if_neg fun hnew ↦ Option.some_ne_none n (hn.symm.trans hnew.2), hold hb, hlead]
    · obtain rfl := List.mem_singleton.1 hb
      split_ifs with hnew
      · exact hadds.self.symm
      · obtain ⟨n, hn⟩ := Option.ne_none_iff_exists'.1 fun hnone ↦ hnew ⟨hk, hnone⟩
        rw [hn, hone hk hn]
  · intro b hb c hc heq
    rcases List.mem_append.1 hb with hb | hb
    · rcases List.mem_append.1 hc with hc | hc
      · rw [hold hb, hold hc] at heq
        exact h.apart b hb c hc heq
      · rw [List.mem_singleton.1 hc] at heq ⊢
        rw [hold hb] at heq
        exact .inr (hnear hb heq.symm).symm
    · obtain rfl := List.mem_singleton.1 hb
      rcases List.mem_append.1 hc with hc | hc
      · rw [hold hc] at heq
        exact .inr (hnear hc heq)
      · exact .inl (List.mem_singleton.1 hc).symm

theorem Gathered.shared {items : List α} {bound : ℕ} {g : Groups α κ} (h : Gathered keys items bound g)
    (hgoes : Goes keys (· ∈ items)) : Shared keys items g := by
  induction h with
  | none => exact ⟨fun _ h ↦ absurd h List.not_mem_nil, fun _ h ↦ absurd h List.not_mem_nil⟩
  | @again items bound g a _ ha ih =>
    have hmem (b : α) : b ∈ items ++ [a] ↔ b ∈ items := by
      rw [List.mem_append, List.mem_singleton]
      exact or_iff_left_of_imp fun hb ↦ hb ▸ ha
    simp only [hmem] at hgoes
    have hshared := ih hgoes
    exact ⟨fun b hb ↦ hshared.leads b ((hmem b).1 hb),
      fun b hb c hc ↦ hshared.apart b ((hmem b).1 hb) c ((hmem c).1 hc)⟩
  | adds hgathered ha hfresh hadds ih =>
    refine Shared.of_adds hgoes hgathered.known (ih fun a m b hsa hsm hsb ↦ ?_) ha hfresh hadds
    exact hgoes a m b (List.mem_append_left _ hsa) (List.mem_append_left _ hsm) (List.mem_append_left _ hsb)

/-- **Items that share a key are together**, and no others, where sharing goes on. -/
theorem Gathered.group_eq_iff {items : List α} {bound : ℕ} {g : Groups α κ}
    (h : Gathered keys items bound g) (hgoes : Goes keys (· ∈ items)) {a b : α} (ha : a ∈ items)
    (hb : b ∈ items) : g.group a = g.group b ↔ a = b ∨ Share keys a b := by
  have hshared := h.shared hgoes
  constructor
  · exact hshared.apart a ha b hb
  · rintro (rfl | ⟨k, hka, hkb⟩)
    · rfl
    · rw [← hshared.leads a ha k hka, ← hshared.leads b hb k hkb]

/-! ## Where it does -/

/-- What was said of the items that came first is not taken back. -/
theorem Gathered.before (items : List α) (more : List α) {bound : ℕ} {g : Groups α κ}
    (h : Gathered keys (items ++ more) bound g) :
    ∃ bound' g', Gathered keys items bound' g' ∧ ∀ a ∈ items, g.group a = g'.group a := by
  induction more using List.reverseRecOn generalizing bound g with
  | nil =>
    rw [List.append_nil] at h
    exact ⟨bound, g, h, fun _ _ ↦ rfl⟩
  | append_singleton more last ih =>
    rw [← List.append_assoc] at h
    generalize hall : items ++ more ++ [last] = all at h
    cases h with
    | none => exact absurd hall (List.append_ne_nil_of_right_ne_nil _ (List.cons_ne_nil _ _))
    | again hgathered _ =>
      obtain ⟨rfl, -⟩ := List.append_inj' hall rfl
      exact ih hgathered
    | adds hgathered ha _ hadds =>
      obtain ⟨rfl, -⟩ := List.append_inj' hall rfl
      obtain ⟨bound', g', hfirst, hsame⟩ := ih hgathered
      refine ⟨bound', g', hfirst, fun b hb ↦ ?_⟩
      rw [hadds.others b fun heq ↦ ha (heq ▸ List.mem_append_left _ hb), hsame b hb]

omit [DecidableEq κ] in
/-- Sharing goes on among two items. -/
theorem goes_two (a b : α) : Goes keys (· ∈ [a, b]) := by
  intro x m y hx hm hy hxm hmy
  simp only [List.mem_cons, List.not_mem_nil, or_false] at hx hm hy
  by_cases hxy : x = y
  · obtain ⟨k, hk, -⟩ := hxm
    exact ⟨k, hk, hxy ▸ hk⟩
  · by_cases hmx : m = x
    · exact hmx ▸ hmy
    · have heq : m = y := by grind
      exact heq ▸ hxm

/-- **The first two items** are together if they share a key, whatever comes after them. -/
theorem Gathered.first_two {a b : α} {rest : List α} {bound : ℕ} {g : Groups α κ}
    (h : Gathered keys (a :: b :: rest) bound g) (hne : a ≠ b) :
    g.group a = g.group b ↔ Share keys a b := by
  obtain ⟨_, g', hfirst, hsame⟩ := Gathered.before [a, b] rest h
  have ha : a ∈ [a, b] := List.mem_cons_self
  have hb : b ∈ [a, b] := List.mem_cons_of_mem _ List.mem_cons_self
  rw [hsame a ha, hsame b hb, hfirst.group_eq_iff (goes_two a b) ha hb, or_iff_right hne]

end Gathering

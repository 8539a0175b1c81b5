import Mathlib.Data.List.Forall2
import Mathlib.Data.List.Nodup

/-!
# Two lists side by side

A list whose members are each followed through a step that may fail (`mapM_forall₂`), and what is
gathered from the members of a list that have a key each (`filter_flatten_of_nodup`).
-/

set_option autoImplicit false

namespace Paired

variable {α β γ κ : Type*}

/-- A step that succeeds on every member takes the whole list along, and keeps what it stands in to
another list. -/
theorem mapM_forall₂ {f : α → Option β} {R : γ → α → Prop} {S : γ → β → Prop}
    (hstep : ∀ c a, R c a → ∃ b, f a = some b ∧ S c b) {cs : List γ} {as : List α}
    (h : List.Forall₂ R cs as) : ∃ bs, as.mapM f = some bs ∧ List.Forall₂ S cs bs := by
  induction h with
  | nil => exact ⟨[], rfl, .nil⟩
  | cons hR _ ih =>
    obtain ⟨b, hb, hS⟩ := hstep _ _ hR
    obtain ⟨bs, hbs, hSs⟩ := ih
    exact ⟨b :: bs, by rw [List.mapM_cons, hb, hbs]; rfl, .cons hS hSs⟩

theorem mapM_eq_map {f : α → Option β} {g : α → β} {as : List α}
    (h : ∀ a ∈ as, f a = some (g a)) : as.mapM f = some (as.map g) := by
  induction as with
  | nil => rfl
  | cons a as ih =>
    rw [List.mapM_cons, h a List.mem_cons_self, ih fun b hb ↦ h b (List.mem_cons_of_mem a hb)]
    rfl

/-- A step that may fail succeeds on a whole list if it does so on every member. -/
theorem mapM_iff {f : α → Option β} {R : α → β → Prop} (hstep : ∀ a b, f a = some b ↔ R a b) {as : List α}
    {bs : List β} : as.mapM f = some bs ↔ List.Forall₂ R as bs := by
  induction as generalizing bs with
  | nil =>
    rw [List.mapM_nil, List.forall₂_nil_left_iff]
    exact ⟨fun h ↦ (Option.some.inj h).symm, fun h ↦ congrArg some h.symm⟩
  | cons a as ih =>
    rw [List.mapM_cons, List.forall₂_cons_left_iff, Option.bind_eq_bind, Option.bind_eq_some_iff]
    constructor
    · rintro ⟨b, hb, h⟩
      obtain ⟨rest, hrest, hsome⟩ := Option.bind_eq_some_iff.1 h
      exact ⟨b, rest, (hstep a b).1 hb, ih.1 hrest, (Option.some.inj hsome).symm⟩
    · rintro ⟨b, rest, hb, hrest, rfl⟩
      refine ⟨b, (hstep a b).2 hb, ?_⟩
      rw [ih.2 hrest]
      rfl

/-- What stands in a relation to a member of the other list. -/
theorem forall₂_mem {R : α → β → Prop} {as : List α} {bs : List β} (h : List.Forall₂ R as bs) :
    List.Forall₂ (fun a b ↦ R a b ∧ b ∈ bs) as bs := by
  induction h with
  | nil => exact .nil
  | cons hR _ ih =>
    refine .cons ⟨hR, List.mem_cons_self⟩ (ih.imp fun a b hab ↦ ?_)
    exact ⟨hab.1, List.mem_cons_of_mem _ hab.2⟩

theorem exists_of_forall₂ {R : α → β → Prop} {as : List α} {bs : List β} (h : List.Forall₂ R as bs)
    {a : α} (ha : a ∈ as) : ∃ b ∈ bs, R a b := by
  induction h with
  | nil => exact absurd ha List.not_mem_nil
  | cons hR _ ih =>
    rcases List.mem_cons.1 ha with rfl | ha
    · exact ⟨_, List.mem_cons_self, hR⟩
    · obtain ⟨b, hb, hab⟩ := ih ha
      exact ⟨b, List.mem_cons_of_mem _ hb, hab⟩

/-- **Whose it is**: of what is gathered from members with different keys, what belongs to a
member's key is what came from that member. -/
theorem filter_flatten_of_nodup [DecidableEq κ] {key : α → κ} {owner : β → κ} {f : α → List β}
    {as : List α} (hkeys : (as.map key).Nodup) (howner : ∀ a ∈ as, ∀ b ∈ f a, owner b = key a)
    {a : α} (ha : a ∈ as) : (as.map f).flatten.filter (fun b ↦ owner b = key a) = f a := by
  induction as with
  | nil => exact absurd ha List.not_mem_nil
  | cons c as ih =>
    rw [List.map_cons, List.nodup_cons] at hkeys
    have hown := howner c List.mem_cons_self
    have hrest (b : α) (hb : b ∈ as) := howner b (List.mem_cons_of_mem c hb)
    rw [List.map_cons, List.flatten_cons, List.filter_append]
    rcases List.mem_cons.1 ha with rfl | ha
    · have hnone : (as.map f).flatten.filter (fun b ↦ owner b = key a) = [] := by
        refine List.filter_eq_nil_iff.2 fun b hb heq ↦ hkeys.1 ?_
        obtain ⟨c, hc, hbc⟩ := List.mem_flatMap.1 (List.flatMap_def ▸ hb)
        rw [← of_decide_eq_true heq, hrest c hc b hbc]
        exact List.mem_map_of_mem hc
      rw [hnone, List.append_nil]
      exact List.filter_eq_self.2 fun b hb ↦ decide_eq_true (hown b hb)
    · have hnone : (f c).filter (fun b ↦ owner b = key a) = [] := by
        refine List.filter_eq_nil_iff.2 fun b hb heq ↦ hkeys.1 ?_
        rw [← hown b hb, of_decide_eq_true heq]
        exact List.mem_map_of_mem ha
      rw [hnone, List.nil_append, ih hkeys.2 hrest ha]

end Paired

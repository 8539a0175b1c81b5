import Luft.Mover.Plan

/-!
# The shapes of a plan

Everything `plan` can return, in one case analysis (`plan_cases`): a single step in place, or a
move to the left or to the right, which goes in one hop or, when the old and the new partition
would overlap too much, in two (`Move.Hops`).
-/

set_option autoImplicit false

namespace Mover

theorem mib_pos : 0 < mib := Nat.two_pow_pos 20

theorem gib_pos : 0 < gib := Nat.two_pow_pos 30

theorem mib_dvd_gib : mib ∣ gib := ⟨2 ^ 10, rfl⟩

theorem gib_le_needed (allocated : ℕ) : gib ≤ needed allocated :=
  (Nat.le_add_left gib _).trans (Align.le_up mib_pos _)

theorem wrappingSub_eq {a b : ℕ} (h : b ≤ a) (ha : a < 2 ^ 64) : wrappingSub a b = a - b := by
  rw [wrappingSub, Nat.sub_add_comm h, Nat.add_mod_right, Nat.mod_eq_of_lt (by omega)]

section

variable {ε α β : Type} {x : Except ε α}

theorem bind_ok {f : α → Except ε β} {b : β} (h : x.bind f = .ok b) :
    ∃ a, x = .ok a ∧ f a = .ok b := by
  cases x with
  | error e => cases h
  | ok a => exact ⟨a, rfl, h⟩

theorem map_ok {f : α → β} {b : β} (h : x.map f = .ok b) : ∃ a, x = .ok a ∧ f a = b := by
  cases x with
  | error e => cases h
  | ok a => exact ⟨a, rfl, Except.ok.inj h⟩

theorem getD_cases {o : Option α} {a b : α} (h : o.getD a = b) :
    o = some b ∨ o = none ∧ a = b := by
  cases o with
  | none => exact .inr ⟨rfl, h⟩
  | some c => exact .inl (congrArg some h)

end

namespace Move

variable {m : Move}

theorem le_kept (m : Move) : m.need + (m.target - m.root.offset) ≤ m.kept :=
  Align.le_up mib_pos _

/-- The ways to bring the root partition to its new place. -/
inductive Hops (m : Move) : List Step → Prop
  | left (hleft : m.target < m.root.offset) (hneed : m.need ≤ m.root.offset - m.target) :
    Hops m (m.into m.root.offset m.target (m.root.offset - m.target))
  | right (hright : m.root.offset < m.target) (hneed : m.need ≤ m.target - m.root.offset) :
    Hops m (.shrink m.root.offset (m.target - m.root.offset) ::
      m.into m.root.offset m.target (m.root.fin - m.target))
  | twice (hdirect : m.direct = false) (hneed : m.need ≤ m.root.fin - m.middle) :
    Hops m (.shrink m.root.offset m.kept ::
      (m.into m.root.offset m.middle (m.root.fin - m.middle) ++
        m.into m.middle m.target (m.middle - m.target)))

theorem hops_cases {hops : List Step} (hpos : 0 < m.need) (h : m.hops = .ok hops) :
    m.Hops hops := by
  simp only [Move.hops] at h
  split at h
  next hleft =>
    obtain ⟨hdirect, hlt⟩ : m.direct = true ∧ m.target < m.root.offset := by
      simpa using hleft
    cases h
    refine .left hlt ?_
    simpa [Move.direct, hlt] using hdirect
  next hleft =>
    split at h
    next hright =>
      obtain ⟨hdirect, hlt⟩ : m.direct = true ∧ m.root.offset < m.target := by
        simpa [Move.landsAtTheEnd] using hright
      cases h
      refine .right hlt ?_
      simpa [Move.direct, Nat.not_lt.2 hlt.le] using hdirect
    next hright =>
      split at h
      · cases h
      next hneed =>
        cases h
        refine .twice ?_ (Nat.not_lt.1 hneed)
        by_contra hdirect
        rw [Bool.not_eq_false] at hdirect
        rcases Nat.lt_trichotomy m.target m.root.offset with hlt | heq | hlt
        · exact hleft (by simp [hdirect, hlt])
        · simp [Move.direct, heq] at hdirect
          omega
        · exact hright (by simp [Move.landsAtTheEnd, hdirect, hlt])

theorem steps_cases {steps : List Step} (hpos : 0 < m.need)
    (h : m.steps = .ok steps) : m.need ≤ wrappingSub m.root.fin m.target ∧
      ∃ hops, m.Hops hops ∧ steps = hops ++ m.stretch := by
  unfold Move.steps at h
  split at h
  · cases h
  next hneed =>
    obtain ⟨hops, hhops, rfl⟩ := map_ok h
    exact ⟨Nat.not_lt.1 hneed, hops, hops_cases hpos hhops, rfl⟩

/-- A root partition that moves to the left stretches to its new end. -/
theorem stretch_left (h : m.target ≤ m.root.offset) : m.stretch = [.grow m.target m.fin] := by
  simp [stretch, landsAtTheEnd, Nat.not_lt.2 h]

end Move

/-- Where the root starts after it has grown to the left. -/
def Layout.leftTarget (layout : Layout) (free : Span) : ℕ :=
  alignUp free.offset + layout.startupSize

/-- The steps with which the startup partition goes ahead to the left. -/
def Layout.startupLeft (layout : Layout) (free : Span) : List Step :=
  layout.startup.elim [] fun startup ↦ moveStartup startup (alignUp free.offset)

/-- Where the root starts after it has given space back. -/
def Layout.rightTarget (layout : Layout) (bytes : ℕ) : ℕ := alignDown (layout.root.offset + bytes)

inductive Layout.Planned (layout : Layout) : Change → List Step → Prop
  | inPlace (free : Span) (hbefore : layout.freeBefore = none)
    (hafter : layout.freeAfter = some free) :
    Planned layout .grow [.grow layout.root.offset free.fin]
  | trimmed (bytes : ℕ) (hle : bytes ≤ layout.root.size)
    (hneed : needed layout.allocated ≤ alignDown (layout.root.size - bytes)) :
    Planned layout (.trim bytes) [.shrink layout.root.offset (alignDown (layout.root.size - bytes))]
  | left (free : Span) (hops : List Step) (hbefore : layout.freeBefore = some free)
    (hsize : max gib layout.startupSize ≤ free.size)
    (hroom : needed layout.allocated ≤ wrappingSub layout.root.fin (layout.leftTarget free))
    (hhops : (layout.move .grow (layout.leftTarget free)).Hops hops) :
    Planned layout .grow (layout.startupLeft free ++
      (hops ++ (layout.move .grow (layout.leftTarget free)).stretch) ++
      closing layout .grow (layout.leftTarget free))
  | right (bytes : ℕ) (hops : List Step)
    (hsize : max gib layout.startupSize ≤ bytes)
    (hroom : needed layout.allocated ≤ wrappingSub layout.root.fin (layout.rightTarget bytes))
    (hhops : (layout.move (.shrink bytes) (layout.rightTarget bytes)).Hops hops) :
    Planned layout (.shrink bytes)
      (hops ++ (layout.move (.shrink bytes) (layout.rightTarget bytes)).stretch ++
        closing layout (.shrink bytes) (layout.rightTarget bytes))

namespace Layout

variable {layout : Layout}

/-- Giving back a gibibyte or more moves the root to the right. -/
theorem lt_rightTarget {bytes : ℕ} (h : gib ≤ bytes) :
    layout.root.offset < layout.rightTarget bytes := by
  have := Align.lt_down mib_pos (layout.root.offset + bytes)
  have : mib < gib := by decide
  rw [rightTarget, alignDown]
  omega

theorem rightTarget_le (bytes : ℕ) : layout.rightTarget bytes ≤ layout.root.offset + bytes :=
  Align.down_le _ _

@[simp] theorem move_need (layout : Layout) (change : Change) (target : ℕ) :
    (layout.move change target).need = needed layout.allocated := by rw [move]

@[simp] theorem move_root (layout : Layout) (change : Change) (target : ℕ) :
    (layout.move change target).root = layout.root := rfl

@[simp] theorem move_target (layout : Layout) (change : Change) (target : ℕ) :
    (layout.move change target).target = target := rfl

@[simp] theorem move_fin (layout : Layout) (change : Change) (target : ℕ) :
    (layout.move change target).fin = layout.growsTo change := rfl

theorem closing_grow (layout : Layout) (target : ℕ) : closing layout .grow target =
    [.rename target layout.rootUuid] ++ layout.luksUuid.elim [] fun uuid ↦ [.settle target uuid] :=
  rfl

theorem closing_alone {change : Change} {target : ℕ} (h : layout.startup = none) :
    closing layout change target =
      [.rename target layout.rootUuid] ++ layout.luksUuid.elim [] fun uuid ↦ [.settle target uuid] := by
  cases change <;> simp only [closing, startupRight, h, Option.elim_none, List.nil_append]

theorem closing_shrink {bytes target : ℕ} {startup : Span × String}
    (h : layout.startup = some startup) : closing layout (.shrink bytes) target =
      moveStartup startup (target - startup.1.size) ++ ([.rename target layout.rootUuid] ++
        layout.luksUuid.elim [] fun uuid ↦ [.settle target uuid]) := by
  rw [closing, startupRight, h, Option.elim_some]

theorem startupLeft_alone (h : layout.startup = none) (free : Span) :
    layout.startupLeft free = [] := by rw [startupLeft, h, Option.elim_none]

theorem startupLeft_some {startup : Span × String} (h : layout.startup = some startup)
    (free : Span) : layout.startupLeft free = moveStartup startup (alignUp free.offset) := by
  rw [startupLeft, h, Option.elim_some]

theorem aim_grow {opening : List Step} {target : ℕ} (h : aim layout .grow = .ok (opening, target)) :
    ∃ free, layout.freeBefore = some free ∧ max gib layout.startupSize ≤ free.size ∧
      opening = layout.startupLeft free ∧ target = layout.leftTarget free := by
  simp only [aim] at h
  split at h
  · cases h
  next free hfree =>
    split at h
    · cases h
    next hsize =>
      refine ⟨free, hfree, Nat.not_lt.1 hsize, ?_⟩
      rcases hstartup : layout.startup with - | startup <;> rw [hstartup] at h <;> cases h <;>
        simp [startupLeft, leftTarget, startupSize, hstartup]

theorem aim_shrink {bytes : ℕ} {opening : List Step} {target : ℕ}
    (h : aim layout (.shrink bytes) = .ok (opening, target)) :
    max gib layout.startupSize ≤ bytes ∧ opening = [] ∧ target = layout.rightTarget bytes := by
  simp only [aim] at h
  split at h
  · cases h
  next hsize =>
    cases h
    exact ⟨Nat.not_lt.1 hsize, rfl, rfl⟩

/-- **What `plan` can return.** -/
theorem plan_cases {change : Change} {steps : List Step} (h : plan layout change = .ok steps) :
    layout.Planned change steps := by
  have hpos : ∀ target, 0 < (layout.move change target).need := fun target ↦ by
    rw [move_need]
    exact gib_pos.trans_le (gib_le_needed layout.allocated)
  rcases getD_cases h with hplace | ⟨-, h⟩
  · cases change with
    | grow =>
      simp only [inPlace] at hplace
      split at hplace
      · cases hplace
      next free hbefore hafter =>
        cases hplace
        exact .inPlace free hbefore hafter
      · cases hplace
    | shrink bytes => simp [inPlace] at hplace
    | trim bytes =>
      simp only [inPlace, Option.some.injEq] at hplace
      split at hplace
      next hroom =>
        cases hplace
        exact .trimmed bytes hroom.1 hroom.2
      · cases hplace
  · obtain ⟨⟨opening, target⟩, haim, h⟩ := bind_ok h
    obtain ⟨own, hsteps, rfl⟩ := map_ok h
    obtain ⟨hroom, hops, hhops, rfl⟩ := Move.steps_cases (hpos target) hsteps
    rw [move_need, move_root, move_target] at hroom
    cases change with
    | grow =>
      obtain ⟨free, hbefore, hsize, rfl, rfl⟩ := aim_grow haim
      exact .left free hops hbefore hsize hroom hhops
    | shrink bytes =>
      obtain ⟨hsize, rfl, rfl⟩ := aim_shrink haim
      rw [List.nil_append]
      exact .right bytes hops hsize hroom hhops
    | trim bytes => simp [aim] at haim

end Layout

end Mover

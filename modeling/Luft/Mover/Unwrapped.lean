import Luft.Lib.Checked
import Luft.Mover.Shapes

/-!
# The planner on 64 bits

The planner again, with each of its additions, subtractions and multiplications on 64 bits:
`checkedPlan` is `none` where one of them wraps around, and otherwise returns what `plan` does
(`checkedPlan_eq`).  `Layout.Exact` says of which changes that is (`plan_unwrapped_iff`).
-/

set_option autoImplicit false

namespace Mover

/-- Where 64-bit numbers end. -/
def top : ℕ := 18446744073709551616

def Span.checkedFin (span : Span) : Option ℕ := Checked.add top span.offset span.size

/-- Rounding up divides first, so only the product can wrap. -/
def checkedAlignUp (bytes : ℕ) : Option ℕ := Checked.mul top ((bytes + (mib - 1)) / mib) mib

def checkedAlignDown (bytes : ℕ) : Option ℕ := Checked.mul top (bytes / mib) mib

def checkedNeeded (allocated : ℕ) : Option ℕ := do
  let bytes ← Checked.add top allocated (allocated / 10)
  let bytes ← Checked.add top bytes gib
  checkedAlignUp bytes

def Move.checkedDirect (m : Move) : Option Bool := do
  if m.target < m.root.offset then
    let room ← Checked.sub m.root.offset m.target
    return decide (m.need ≤ room)
  else
    let room ← Checked.sub m.target m.root.offset
    return decide (m.need ≤ room)

def Move.checkedHops (m : Move) (fin : ℕ) (direct : Bool) : Option (Except String (List Step)) := do
  let start := m.root.offset
  if direct && decide (m.target < start) then
    let size ← Checked.sub start m.target
    return .ok (m.into start m.target size)
  else if direct && decide (start < m.target) then
    let kept ← Checked.sub m.target start
    let size ← Checked.sub fin m.target
    return .ok (.shrink start kept :: m.into start m.target size)
  else
    let sum ← Checked.add top m.need (m.target - start)
    let kept ← checkedAlignUp sum
    let middle ← Checked.add top start kept
    if fin - middle < m.need then
      return .error "Luft is too full to move into this little space. Make some room in Luft first"
    let size ← Checked.sub fin middle
    let size' ← Checked.sub middle m.target
    return .ok (.shrink start kept :: (m.into start middle size ++ m.into middle m.target size'))

def Move.checkedSteps (m : Move) : Option (Except String (List Step)) := do
  let fin ← m.root.checkedFin
  let room ← Checked.sub fin m.target
  if room < m.need then return .error "Luft wouldn't have room for its files"
  let direct ← m.checkedDirect
  match ← m.checkedHops fin direct with
  | .error error => return .error error
  | .ok hops =>
    let landsAtTheEnd := direct && decide (m.root.offset < m.target)
    return .ok
      (hops ++ if !landsAtTheEnd || decide (fin < m.fin) then [.grow m.target m.fin] else [])

def checkedInPlace (layout : Layout) (change : Change) (need : ℕ) :
    Option (Option (Except String (List Step))) :=
  match change with
  | .grow =>
    match layout.freeBefore, layout.freeAfter with
    | some _, _ => some none
    | none, some free => free.checkedFin.map fun fin ↦ some (.ok [.grow layout.root.offset fin])
    | none, none => some (some (.error "There's no free space next to Luft"))
  | .trim bytes =>
    if bytes ≤ layout.root.size then
      (checkedAlignDown (layout.root.size - bytes)).map fun kept ↦ some <|
        if need ≤ kept then .ok [.shrink layout.root.offset kept]
        else .error "Luft wouldn't have room for its files"
    else some (some (.error "Luft wouldn't have room for its files"))
  | .shrink _ => some none

def checkedAim (layout : Layout) : Change → Option (Except String (List Step × ℕ))
  | .grow =>
    match layout.freeBefore with
    | none => some (.error "There's no free space right before Luft")
    | some free =>
      if free.size < max gib layout.startupSize then
        some (.error "The free space is too small for Luft to move into")
      else do
        let target ← checkedAlignUp free.offset
        match layout.startup with
        | some startup =>
          let root ← Checked.add top target startup.1.size
          return .ok (moveStartup startup target, root)
        | none => return .ok ([], target)
  | .shrink bytes =>
    if bytes < max gib layout.startupSize then some (.error "That's too little to give back")
    else do
      let sum ← Checked.add top layout.root.offset bytes
      let target ← checkedAlignDown sum
      return .ok ([], target)
  | .trim _ => some (.error "trimming happens in place")

def Layout.checkedGrowsTo (layout : Layout) : Change → Option ℕ
  | .grow => layout.freeAfter.elim layout.root.checkedFin Span.checkedFin
  | _ => layout.root.checkedFin

def Layout.checkedStartupRight (layout : Layout) (target : ℕ) : Change → Option (List Step)
  | .shrink _ =>
    match layout.startup with
    | some startup => (Checked.sub target startup.1.size).map (moveStartup startup)
    | none => some []
  | _ => some []

/-- The rest of a plan, once it is known where the root partition will start. -/
def Layout.checkedRest (layout : Layout) (change : Change) (need : ℕ) (aimed : List Step × ℕ) :
    Option (Except String (List Step)) := do
  let fin ← layout.checkedGrowsTo change
  match ← Move.checkedSteps ⟨layout.root, aimed.2, fin, need, layout.luksUuid.isSome⟩ with
  | .error error => return .error error
  | .ok steps =>
    let right ← layout.checkedStartupRight aimed.2 change
    return .ok (aimed.1 ++ steps ++ (right ++ ([.rename aimed.2 layout.rootUuid] ++
      layout.luksUuid.elim [] fun uuid ↦ [.settle aimed.2 uuid])))

def checkedPlan (layout : Layout) (change : Change) : Option (Except String (List Step)) := do
  let need ← checkedNeeded layout.allocated
  match ← checkedInPlace layout change need with
  | some steps => return steps
  | none =>
    match ← checkedAim layout change with
    | .error error => return .error error
    | .ok aimed => layout.checkedRest change need aimed

/-! ## When nothing wraps -/

/-- Half of the 64-bit numbers: where every stretch of a drive ends. -/
def half : ℕ := 9223372036854775808

/-- Every stretch ends below the half. -/
structure Layout.Bounded (layout : Layout) : Prop where
  root : layout.root.fin < half
  startup : ∀ startup ∈ layout.startup, startup.1.fin < half
  before : ∀ free ∈ layout.freeBefore, free.fin < half
  after : ∀ free ∈ layout.freeAfter, free.fin < half

theorem Span.checkedFin_eq {span : Span} (h : span.fin < half) : span.checkedFin = some span.fin :=
  Checked.add_of_lt (h.trans (by decide))

theorem checkedAlignUp_eq {bytes : ℕ} (h : alignUp bytes < top) :
    checkedAlignUp bytes = some (alignUp bytes) := Checked.mul_of_lt h

theorem checkedAlignDown_eq {bytes : ℕ} (h : bytes < top) :
    checkedAlignDown bytes = some (alignDown bytes) :=
  Checked.mul_of_lt ((Align.down_le mib bytes).trans_lt h)

theorem checkedNeeded_eq (allocated : ℕ) : checkedNeeded allocated =
    if needed allocated < top then some (needed allocated) else none := by
  have hup := Align.le_up mib_pos (allocated + allocated / 10 + gib)
  rw [← alignUp] at hup
  rw [checkedNeeded, needed]
  split_ifs with h
  · rw [Checked.add_of_lt (by omega), Option.bind_eq_bind, Option.bind_some,
      Checked.add_of_lt (by omega), Option.bind_some, checkedAlignUp_eq h]
  · by_cases hfirst : allocated + allocated / 10 < top
    · rw [Checked.add_of_lt hfirst, Option.bind_eq_bind, Option.bind_some]
      by_cases hsecond : allocated + allocated / 10 + gib < top
      · rw [Checked.add_of_lt hsecond, Option.bind_some]
        exact Checked.mul_of_le (Nat.not_lt.1 h)
      · rw [Checked.add_of_le (Nat.not_lt.1 hsecond), Option.bind_none]
    · rw [Checked.add_of_le (Nat.not_lt.1 hfirst), Option.bind_eq_bind, Option.bind_none]

/-! ## The steps of a move -/

namespace Move

variable {m : Move}

theorem checkedDirect_eq (m : Move) : m.checkedDirect = some m.direct := by
  rw [checkedDirect, direct]
  split_ifs with h
  · rw [Checked.sub_of_le h.le]
    rfl
  · rw [Checked.sub_of_le (Nat.not_lt.1 h)]
    rfl

/-- The middle partition is made below the end of the 64-bit numbers. -/
theorem middle_bounds (hfin : m.root.fin < half) (haligned : mib ∣ m.need)
    (htarget : m.target ≤ m.root.fin) (hroom : m.need ≤ m.root.fin - m.target) :
    m.kept < top ∧ m.middle < top ∧ m.need + (m.target - m.root.offset) < top ∧
      m.target ≤ m.middle := by
  have hstart : m.root.offset ≤ m.root.fin := Nat.le_add_right _ _
  have hkept : m.kept < m.need + (m.target - m.root.offset) + mib := Align.up_lt mib_pos _
  have hle := le_kept m
  have hlimits : half + half = top ∧ mib < half := by decide
  have hmiddle : m.middle = m.root.offset + m.kept := rfl
  rcases le_or_gt m.root.offset m.target with hright | hleft
  · omega
  · -- nothing is rounded up: what Luft needs is whole mebibytes
    have hsame : m.kept ≤ m.need := by
      rw [kept, Nat.sub_eq_zero_of_le hleft.le]
      exact Align.up_le haligned le_rfl
    omega

theorem checkedHops_eq (hfin : m.root.fin < half) (haligned : mib ∣ m.need) (hpos : 0 < m.need)
    (htarget : m.target ≤ m.root.fin) (hroom : m.need ≤ m.root.fin - m.target) :
    m.checkedHops m.root.fin m.direct = some m.hops := by
  obtain ⟨hkept, hmiddle, hsum, hle⟩ := middle_bounds hfin haligned htarget hroom
  rw [checkedHops, hops, landsAtTheEnd]
  split_ifs with hleft hright hfull
  · rw [Bool.and_eq_true, decide_eq_true_eq] at hleft
    rw [Checked.sub_of_le hleft.2.le]
    rfl
  · rw [Bool.and_eq_true, decide_eq_true_eq] at hright
    rw [Checked.sub_of_le hright.2.le, Checked.sub_of_le htarget]
    rfl
  all_goals
    have hup : checkedAlignUp (m.need + (m.target - m.root.offset)) = some m.kept :=
      checkedAlignUp_eq hkept
    have hmid : Checked.add top m.root.offset m.kept = some m.middle := Checked.add_of_lt hmiddle
    rw [Checked.add_of_lt hsum, Option.bind_eq_bind, Option.bind_some, hup, Option.bind_some, hmid,
      Option.bind_some]
  · exact if_pos hfull
  · have hend : m.middle ≤ m.root.fin := by omega
    refine (if_neg hfull).trans ?_
    rw [Checked.sub_of_le hend, Option.bind_some, Checked.sub_of_le hle]
    rfl

/-- **The steps are the same on 64 bits**, unless the partition would start behind its end. -/
theorem checkedSteps_eq (hfin : m.root.fin < half) (haligned : mib ∣ m.need) (hpos : 0 < m.need) :
    m.checkedSteps = if m.target ≤ m.root.fin then some m.steps else none := by
  simp only [checkedSteps, Span.checkedFin_eq hfin, Option.bind_eq_bind, Option.bind_some]
  split_ifs with htarget
  · have hwrap : wrappingSub m.root.fin m.target = m.root.fin - m.target :=
      wrappingSub_eq htarget (hfin.trans (by decide))
    simp only [Checked.sub_of_le htarget, steps, hwrap, Option.bind_some]
    split_ifs with hroom
    · rfl
    · have hhops := checkedHops_eq hfin haligned hpos htarget (Nat.not_lt.1 hroom)
      simp only [checkedDirect_eq, Option.bind_some, hhops]
      cases m.hops <;> rfl
  · rw [Checked.sub_of_lt (Nat.not_le.1 htarget), Option.bind_none]

/-- There is room for the root partition at its new place. -/
def Room (m : Move) : Prop :=
  m.need ≤ m.root.fin - m.target ∧ (m.direct ∨ m.need ≤ m.root.fin - m.middle)

/-- A partition that goes to the right is given its steps exactly when there is room for it. -/
theorem steps_right (hfin : m.root.fin < half) (htarget : m.target ≤ m.root.fin)
    (hright : m.root.offset < m.target) : (∃ steps, m.steps = .ok steps) ↔ m.Room := by
  have hwrap : wrappingSub m.root.fin m.target = m.root.fin - m.target :=
    wrappingSub_eq htarget (hfin.trans (by decide))
  have hleft : ¬ (m.direct && decide (m.target < m.root.offset)) = true := by
    rw [Bool.and_eq_true, decide_eq_true_eq]
    exact fun h ↦ (h.2.trans hright).ne rfl
  have hlands : m.landsAtTheEnd = m.direct := by
    rw [landsAtTheEnd, decide_eq_true hright, Bool.and_true]
  rw [steps, hwrap, hops, if_neg hleft, hlands, Room]
  split_ifs with hroom hdirect hfull
  · refine iff_of_false ?_ fun h ↦ Nat.not_lt.2 h.1 hroom
    rintro ⟨steps, h⟩
    cases h
  · exact iff_of_true ⟨_, rfl⟩ ⟨Nat.not_lt.1 hroom, .inl hdirect⟩
  · refine iff_of_false ?_ fun h ↦ h.2.elim hdirect fun hmiddle ↦ Nat.not_lt.2 hmiddle hfull
    rintro ⟨steps, h⟩
    cases h
  · exact iff_of_true ⟨_, rfl⟩ ⟨Nat.not_lt.1 hroom, .inr (Nat.not_lt.1 hfull)⟩

end Move

/-! ## Whole plans -/

variable {layout : Layout}

/-- What keeps the planner's numbers from wrapping: Luft needs less than 64 bits can say, and it
starts at or before its end where it is to go; what is given back leaves its startup partition a
place on the drive. -/
def Layout.Exact (layout : Layout) (change : Change) : Prop :=
  needed layout.allocated < top ∧
    match change with
    | .grow => ∀ free ∈ layout.freeBefore, max gib layout.startupSize ≤ free.size →
        layout.leftTarget free ≤ layout.root.fin
    | .shrink bytes => max gib layout.startupSize ≤ bytes →
        layout.root.offset + bytes < top ∧ layout.rightTarget bytes ≤ layout.root.fin ∧
          ((layout.move (.shrink bytes) (layout.rightTarget bytes)).Room →
            layout.startupSize ≤ layout.rightTarget bytes)
    | .trim _ => True

theorem mib_dvd_needed (allocated : ℕ) : mib ∣ needed allocated := Align.dvd_up _ _

theorem needed_pos (allocated : ℕ) : 0 < needed allocated := gib_pos.trans_le (gib_le_needed _)

theorem checkedGrowsTo_eq (h : layout.Bounded) (change : Change) :
    layout.checkedGrowsTo change = some (layout.growsTo change) := by
  have hroot := Span.checkedFin_eq h.root
  cases change with
  | grow =>
    rw [Layout.checkedGrowsTo, Layout.growsTo]
    cases hafter : layout.freeAfter with
    | none => exact hroot
    | some free => exact Span.checkedFin_eq (h.after free hafter)
  | shrink => exact hroot
  | trim => exact hroot

/-- The rest of a plan does not wrap while the partition starts at or before its end, and the
startup partition is moved to a place on the drive. -/
theorem checkedRest_eq (h : layout.Bounded) (change : Change) (opening : List Step) (target : ℕ) :
    layout.checkedRest change (needed layout.allocated) (opening, target) =
      if target ≤ layout.root.fin then
        match (layout.move change target).steps with
        | .error error => some (.error error)
        | .ok steps => (layout.checkedStartupRight target change).map fun right ↦
          .ok (opening ++ steps ++ (right ++ ([.rename target layout.rootUuid] ++
            layout.luksUuid.elim [] fun uuid ↦ [.settle target uuid])))
      else none := by
  have hsteps := Move.checkedSteps_eq (m := layout.move change target) h.root
    (mib_dvd_needed layout.allocated) (needed_pos layout.allocated)
  simp only [Layout.checkedRest, checkedGrowsTo_eq h, Option.bind_eq_bind, Option.bind_some]
  rw [Layout.move_root, Layout.move_target] at hsteps
  rw [Layout.move] at hsteps ⊢
  rw [hsteps]
  split_ifs
  · rw [Option.bind_some]
    cases Move.steps ⟨layout.root, target, layout.growsTo change, needed layout.allocated,
        layout.luksUuid.isSome⟩ with
    | error => rfl
    | ok steps => cases layout.checkedStartupRight target change <;> rfl
  · rfl

/-- What `plan` returns where it does not stay in place. -/
theorem plan_moved {change : Change} (hplace : inPlace layout change (needed layout.allocated) = none)
    {opening : List Step} {target : ℕ} (haim : aim layout change = .ok (opening, target)) :
    plan layout change = (layout.move change target).steps.map fun steps ↦
      opening ++ steps ++ closing layout change target := by
  unfold plan
  rw [hplace, haim, Option.getD_none, Except.bind]

theorem plan_inPlace {change : Change} {result : Except String (List Step)}
    (h : inPlace layout change (needed layout.allocated) = some result) :
    plan layout change = result := by
  unfold plan
  rw [h, Option.getD_some]

theorem plan_refused {change : Change} {error : String}
    (hplace : inPlace layout change (needed layout.allocated) = none)
    (haim : aim layout change = .error error) : plan layout change = .error error := by
  unfold plan
  rw [hplace, haim, Option.getD_none, Except.bind]

/-- The planner on 64 bits, where it knows what Luft needs. -/
theorem checkedPlan_needed (hneed : needed layout.allocated < top) (change : Change) :
    checkedPlan layout change =
      (checkedInPlace layout change (needed layout.allocated)).bind fun
        | some steps => some steps
        | none => (checkedAim layout change).bind fun
          | .error error => some (.error error)
          | .ok aimed => layout.checkedRest change (needed layout.allocated) aimed := by
  unfold checkedPlan
  rw [checkedNeeded_eq, if_pos hneed]
  rfl

theorem checkedPlan_inPlace (hneed : needed layout.allocated < top) {change : Change}
    {result : Except String (List Step)}
    (h : checkedInPlace layout change (needed layout.allocated) = some (some result)) :
    checkedPlan layout change = some result := by
  rw [checkedPlan_needed hneed, h, Option.bind_some]

theorem checkedPlan_refused (hneed : needed layout.allocated < top) {change : Change}
    {error : String} (hplace : checkedInPlace layout change (needed layout.allocated) = some none)
    (haim : checkedAim layout change = some (.error error)) :
    checkedPlan layout change = some (.error error) := by
  rw [checkedPlan_needed hneed, hplace, Option.bind_some]
  simp only [haim, Option.bind_some]

theorem checkedPlan_moved (hneed : needed layout.allocated < top) {change : Change}
    {opening : List Step} {target : ℕ}
    (hplace : checkedInPlace layout change (needed layout.allocated) = some none)
    (haim : checkedAim layout change = some (.ok (opening, target))) :
    checkedPlan layout change =
      layout.checkedRest change (needed layout.allocated) (opening, target) := by
  rw [checkedPlan_needed hneed, hplace, Option.bind_some]
  simp only [haim, Option.bind_some]

theorem checkedPlan_trim (h : layout.Bounded) (hneed : needed layout.allocated < top) (bytes : ℕ) :
    checkedPlan layout (.trim bytes) = some (plan layout (.trim bytes)) := by
  have hroot : layout.root.fin < half := h.root
  have hsize : layout.root.size ≤ layout.root.fin := Nat.le_add_left _ _
  have hdown : checkedAlignDown (layout.root.size - bytes) =
      some (alignDown (layout.root.size - bytes)) :=
    checkedAlignDown_eq ((Nat.sub_le _ _).trans_lt (hsize.trans_lt (hroot.trans (by decide))))
  have hplace : checkedInPlace layout (.trim bytes) (needed layout.allocated) =
      some (inPlace layout (.trim bytes) (needed layout.allocated)) := by
    rw [checkedInPlace, inPlace, hdown, Option.map_some]
    by_cases hle : bytes ≤ layout.root.size
    · by_cases hkept : needed layout.allocated ≤ alignDown (layout.root.size - bytes)
      · rw [if_pos hle, if_pos hkept, if_pos ⟨hle, hkept⟩]
      · rw [if_pos hle, if_neg hkept, if_neg fun h ↦ hkept h.2]
    · rw [if_neg hle, if_neg fun h ↦ hle h.1]
  rw [checkedPlan_needed hneed, hplace, Option.bind_some, plan_inPlace rfl, inPlace]

theorem checkedAim_grow (h : layout.Bounded) {free : Span} (hbefore : layout.freeBefore = some free)
    (hsize : max gib layout.startupSize ≤ free.size) :
    checkedAim layout .grow = some (.ok (layout.startupLeft free, layout.leftTarget free)) ∧
      aim layout .grow = .ok (layout.startupLeft free, layout.leftTarget free) := by
  have hfree : free.offset + free.size < half := h.before free hbefore
  have hstartup : layout.startupSize ≤ free.size := (le_max_right _ _).trans hsize
  have hup : alignUp free.offset < free.offset + mib := Align.up_lt mib_pos _
  have hlimits : half + mib < top := by decide
  simp only [checkedAim, aim, hbefore, if_neg (Nat.not_lt.2 hsize),
    checkedAlignUp_eq (show alignUp free.offset < top by omega), Option.bind_eq_bind,
    Option.bind_some]
  cases hroot : layout.startup with
  | none =>
    simp only [Layout.startupLeft_alone hroot, Layout.leftTarget, Layout.startupSize, hroot,
      Option.elim_none, add_zero]
    exact ⟨rfl, trivial⟩
  | some startup =>
    have hle : startup.1.size ≤ free.size := by
      rwa [Layout.startupSize, hroot] at hstartup
    have hsum : alignUp free.offset + startup.1.size < top := by omega
    simp only [Layout.startupLeft_some hroot, Layout.leftTarget, Layout.startupSize, hroot,
      Checked.add_of_lt hsum, Option.elim_some]
    exact ⟨rfl, trivial⟩

theorem checkedPlan_grow (h : layout.Bounded) (hneed : needed layout.allocated < top) :
    (layout.Exact .grow → checkedPlan layout .grow = some (plan layout .grow)) ∧
      (¬ layout.Exact .grow → checkedPlan layout .grow = none) := by
  cases hbefore : layout.freeBefore with
  | none =>
    have hsafe : layout.Exact .grow := ⟨hneed, fun free hfree ↦ nomatch hbefore.symm.trans hfree⟩
    refine ⟨fun _ ↦ ?_, fun hnot ↦ absurd hsafe hnot⟩
    cases hafter : layout.freeAfter with
    | none =>
      have hplace : inPlace layout .grow (needed layout.allocated) =
          some (.error "There's no free space next to Luft") := by
        rw [inPlace, hbefore, hafter]
      have hchecked : checkedInPlace layout .grow (needed layout.allocated) =
          some (some (.error "There's no free space next to Luft")) := by
        rw [checkedInPlace, hbefore, hafter]
      rw [plan_inPlace hplace, checkedPlan_inPlace hneed hchecked]
    | some free =>
      have hplace : inPlace layout .grow (needed layout.allocated) =
          some (.ok [.grow layout.root.offset free.fin]) := by
        rw [inPlace, hbefore, hafter]
      have hchecked : checkedInPlace layout .grow (needed layout.allocated) =
          some (some (.ok [.grow layout.root.offset free.fin])) := by
        simp only [checkedInPlace, hbefore, hafter, Span.checkedFin_eq (h.after free hafter),
          Option.map_some]
      rw [plan_inPlace hplace, checkedPlan_inPlace hneed hchecked]
  | some free =>
    have hsafe : layout.Exact .grow ↔ (max gib layout.startupSize ≤ free.size →
        layout.leftTarget free ≤ layout.root.fin) := by
      constructor
      · exact fun hsafe ↦ hsafe.2 free hbefore
      · rintro hle
        refine ⟨hneed, fun free' hfree' ↦ ?_⟩
        rwa [← Option.some.inj (hbefore.symm.trans hfree')]
    have hplace : inPlace layout .grow (needed layout.allocated) = none := by
      rw [inPlace, hbefore]
    have hchecked : checkedInPlace layout .grow (needed layout.allocated) = some none := by
      rw [checkedInPlace, hbefore]
    rw [hsafe]
    by_cases hsize : free.size < max gib layout.startupSize
    · refine ⟨fun _ ↦ ?_, fun hnot ↦ absurd (fun hle ↦ absurd hsize (Nat.not_lt.2 hle)) hnot⟩
      have haim : aim layout .grow =
          .error "The free space is too small for Luft to move into" := by
        simp only [aim, hbefore, if_pos hsize]
      have haim' : checkedAim layout .grow =
          some (.error "The free space is too small for Luft to move into") := by
        simp only [checkedAim, hbefore, if_pos hsize]
      rw [plan_refused hplace haim, checkedPlan_refused hneed hchecked haim']
    · obtain ⟨haim', haim⟩ := checkedAim_grow h hbefore (Nat.not_lt.1 hsize)
      have hright : layout.checkedStartupRight (layout.leftTarget free) .grow = some [] := rfl
      rw [plan_moved hplace haim, checkedPlan_moved hneed hchecked haim', checkedRest_eq h, hright]
      constructor
      · intro htarget
        rw [if_pos (htarget (Nat.not_lt.1 hsize))]
        cases (layout.move .grow (layout.leftTarget free)).steps with
        | error => rw [Except.map]
        | ok => simp only [Except.map, Option.map_some, Layout.closing_grow, List.nil_append]
      · intro hnot
        exact if_neg fun hle ↦ hnot fun _ ↦ hle

theorem checkedPlan_shrink (h : layout.Bounded) (hneed : needed layout.allocated < top)
    (bytes : ℕ) :
    (layout.Exact (.shrink bytes) →
        checkedPlan layout (.shrink bytes) = some (plan layout (.shrink bytes))) ∧
      (¬ layout.Exact (.shrink bytes) → checkedPlan layout (.shrink bytes) = none) := by
  have hplace : inPlace layout (.shrink bytes) (needed layout.allocated) = none := by rw [inPlace]
  have hchecked : checkedInPlace layout (.shrink bytes) (needed layout.allocated) = some none := by
    rw [checkedInPlace]
  by_cases hsize : bytes < max gib layout.startupSize
  · refine ⟨fun _ ↦ ?_, fun hnot ↦ ?_⟩
    · have haim : aim layout (.shrink bytes) = .error "That's too little to give back" := by
        simp only [aim, if_pos hsize]
      have haim' : checkedAim layout (.shrink bytes) =
          some (.error "That's too little to give back") := by
        simp only [checkedAim, if_pos hsize]
      rw [plan_refused hplace haim, checkedPlan_refused hneed hchecked haim']
    · exact absurd ⟨hneed, fun hle ↦ absurd hsize (Nat.not_lt.2 hle)⟩ hnot
  · have hlarge : max gib layout.startupSize ≤ bytes := Nat.not_lt.1 hsize
    by_cases hsum : layout.root.offset + bytes < top
    · have hright : layout.root.offset < layout.rightTarget bytes :=
        Layout.lt_rightTarget ((le_max_left _ _).trans hlarge)
      have haim' : checkedAim layout (.shrink bytes) =
          some (.ok ([], layout.rightTarget bytes)) := by
        rw [checkedAim, if_neg hsize, Checked.add_of_lt hsum, Option.bind_eq_bind, Option.bind_some,
          checkedAlignDown_eq hsum, Option.bind_some, Option.pure_def, Layout.rightTarget]
      have haim : aim layout (.shrink bytes) = .ok ([], layout.rightTarget bytes) := by
        simp only [aim, if_neg hsize, Layout.rightTarget]
      rw [checkedPlan_moved hneed hchecked haim', plan_moved hplace haim, checkedRest_eq h]
      by_cases htarget : layout.rightTarget bytes ≤ layout.root.fin
      · have hroom := Move.steps_right (m := layout.move (.shrink bytes) (layout.rightTarget bytes))
          h.root htarget hright
        rw [if_pos htarget]
        cases hsteps : (layout.move (.shrink bytes) (layout.rightTarget bytes)).steps with
        | error error =>
          refine ⟨fun _ ↦ by rw [Except.map], fun hnot ↦ ?_⟩
          refine absurd ⟨hneed, fun _ ↦ ⟨hsum, htarget, fun hfits ↦ ?_⟩⟩ hnot
          obtain ⟨steps, hok⟩ := hroom.2 hfits
          rw [hsteps] at hok
          cases hok
        | ok steps =>
          have hfits := hroom.1 ⟨steps, hsteps⟩
          cases hstartup : layout.startup with
          | none =>
            refine ⟨fun _ ↦ ?_, fun hnot ↦ absurd ⟨hneed, fun _ ↦ ⟨hsum, htarget, fun _ ↦ ?_⟩⟩ hnot⟩
            · simp only [Layout.checkedStartupRight, hstartup, Layout.closing_alone hstartup,
                Option.map_some, List.nil_append, Except.map]
            · rw [Layout.startupSize, hstartup, Option.elim_none]
              exact Nat.zero_le _
          | some startup =>
            have hsame : layout.startupSize = startup.1.size := by
              rw [Layout.startupSize, hstartup, Option.elim_some]
            constructor
            · rintro ⟨-, hall⟩
              have hle := (hall hlarge).2.2 hfits
              rw [hsame] at hle
              simp only [Layout.checkedStartupRight, hstartup, Checked.sub_of_le hle,
                Layout.closing_shrink hstartup, Option.map_some, Except.map]
            · intro hnot
              have hlt : layout.rightTarget bytes < startup.1.size := by
                by_contra hle
                refine hnot ⟨hneed, fun _ ↦ ⟨hsum, htarget, fun _ ↦ ?_⟩⟩
                rw [hsame]
                exact Nat.not_lt.1 hle
              simp only [Layout.checkedStartupRight, hstartup, Checked.sub_of_lt hlt,
                Option.map_none]
      · exact ⟨fun hsafe ↦ absurd (hsafe.2 hlarge).2.1 htarget, fun _ ↦ if_neg htarget⟩
    · refine ⟨fun hsafe ↦ absurd (hsafe.2 hlarge).1 hsum, fun _ ↦ ?_⟩
      have haim' : checkedAim layout (.shrink bytes) = none := by
        simp only [checkedAim, if_neg hsize, Checked.add_of_le (Nat.not_lt.1 hsum),
          Option.bind_eq_bind, Option.bind_none]
      rw [checkedPlan_needed hneed, hchecked, Option.bind_some]
      simp only [haim', Option.bind_none]

/-- **Where nothing wraps** the planner on 64 bits is the planner, and elsewhere something does. -/
theorem checkedPlan_eq (h : layout.Bounded) (change : Change) :
    (layout.Exact change → checkedPlan layout change = some (plan layout change)) ∧
      (¬ layout.Exact change → checkedPlan layout change = none) := by
  by_cases hneed : needed layout.allocated < top
  · cases change with
    | grow => exact checkedPlan_grow h hneed
    | shrink bytes => exact checkedPlan_shrink h hneed bytes
    | trim bytes =>
      exact ⟨fun _ ↦ checkedPlan_trim h hneed bytes, fun hnot ↦ absurd ⟨hneed, trivial⟩ hnot⟩
  · refine ⟨fun hsafe ↦ absurd hsafe.1 hneed, fun _ ↦ ?_⟩
    unfold checkedPlan
    rw [checkedNeeded_eq, if_neg hneed, Option.bind_eq_bind, Option.bind_none]

/-- A plan that gives back more than there is, and does not wrap, is refused. -/
theorem plan_shrink_error (h : layout.Bounded) {bytes : ℕ} (hsafe : layout.Exact (.shrink bytes))
    (hmore : layout.root.size < bytes) : ∃ error, plan layout (.shrink bytes) = .error error := by
  have hplace : inPlace layout (.shrink bytes) (needed layout.allocated) = none := by rw [inPlace]
  by_cases hsize : bytes < max gib layout.startupSize
  · have haim : aim layout (.shrink bytes) = .error "That's too little to give back" := by
      simp only [aim, if_pos hsize]
    exact ⟨_, plan_refused hplace haim⟩
  · have haim : aim layout (.shrink bytes) = .ok ([], layout.rightTarget bytes) := by
      simp only [aim, if_neg hsize, Layout.rightTarget]
    have htarget := (hsafe.2 (Nat.not_lt.1 hsize)).2.1
    have hwrap : wrappingSub layout.root.fin (layout.rightTarget bytes) =
        layout.root.fin - layout.rightTarget bytes :=
      wrappingSub_eq htarget (h.root.trans (by decide))
    -- less than a mebibyte is left, and Luft needs a gibibyte
    have hleft : layout.root.offset + bytes < layout.rightTarget bytes + mib :=
      Align.lt_down mib_pos _
    have hfin : layout.root.fin = layout.root.offset + layout.root.size := rfl
    have hneed := gib_le_needed layout.allocated
    have hmib : mib < gib := by decide
    have hroom : layout.root.fin - layout.rightTarget bytes < needed layout.allocated := by omega
    have hsteps : (layout.move (.shrink bytes) (layout.rightTarget bytes)).steps =
        .error "Luft wouldn't have room for its files" := by
      rw [Move.steps, Layout.move_root, Layout.move_target, Layout.move_need, hwrap, if_pos hroom]
    rw [plan_moved hplace haim, hsteps]
    exact ⟨_, rfl⟩

/-- **The planner's numbers do not wrap**, and more than there is is not given back, exactly for the
changes that are exact. -/
theorem plan_unwrapped_iff (h : layout.Bounded) (change : Change) :
    (∃ result, checkedPlan layout change = some result ∧ ∀ bytes, change = .shrink bytes →
      layout.root.size < bytes → ∃ error, result = .error error) ↔ layout.Exact change := by
  obtain ⟨hsafe, hnot⟩ := checkedPlan_eq h change
  constructor
  · rintro ⟨result, hresult, -⟩
    by_contra hunsafe
    exact nomatch (hnot hunsafe).symm.trans hresult
  · intro hchange
    refine ⟨_, hsafe hchange, ?_⟩
    rintro bytes rfl hlarge
    exact plan_shrink_error h hchange hlarge

/-- Luft on 100 GiB behind a start of one. -/
def hundredGib : Layout where
  root := ⟨1073741824, 107374182400⟩
  rootUuid := "root"
  luksUuid := none
  startup := none
  freeBefore := none
  freeAfter := none
  allocated := 10737418240

theorem bounded_hundredGib : hundredGib.Bounded where
  root := by decide
  startup _ h := nomatch h
  before _ h := nomatch h
  after _ h := nomatch h

/-- Half of it is given back. -/
theorem plan_unwrapped_half : ∃ result,
    checkedPlan hundredGib (.shrink 53687091200) = some result ∧
      ∀ bytes, Change.shrink 53687091200 = .shrink bytes → hundredGib.root.size < bytes →
        ∃ error, result = .error error := by
  refine (plan_unwrapped_iff bounded_hundredGib _).2 ⟨by decide, fun _ ↦ ⟨by decide, by decide, ?_⟩⟩
  exact fun _ ↦ Nat.zero_le _

/-- Twice as much as there is: the room that would be left wraps around, and seems enough. -/
theorem plan_wraps : hundredGib.root.size < 214748364800 ∧
    checkedPlan hundredGib (.shrink 214748364800) = none ∧
    needed hundredGib.allocated ≤
      wrappingSub hundredGib.root.fin (hundredGib.rightTarget 214748364800) := by
  decide

end Mover

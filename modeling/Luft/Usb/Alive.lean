import Luft.Lib.Runs
import Luft.Usb.Plugging

/-!
# No device is left behind

Once everything that happened was handled, what the guard held back is let in if the guard is down,
and listed in `held` as long as it waits if the guard is up (`Alive`).

The kernel holds a device back when it is plugged in, the guard lists it when it is told, and what
it lists is let in when the guard comes down.  A device the guard was not told about when it came
down is let in by nobody: the announcement that comes later is passed over.  So every device that
waits has to be known by then, and the other conditions (`Told`) keep the list right when the guard
missed something and a place was taken again.  `Tracked` is what holds in between.
-/

set_option autoImplicit false

namespace Usb

/-- The last announcement about a place. -/
def lastAbout (id : String) (pending : List Uevent) : Option Uevent :=
  (pending.filter fun uevent ↦ uevent.id = id).getLast?

theorem lastAbout_append_self (uevent : Uevent) (pending : List Uevent) :
    lastAbout uevent.id (pending ++ [uevent]) = some uevent := by
  simp [lastAbout]

theorem lastAbout_append_of_ne {id : String} {uevent : Uevent} (h : uevent.id ≠ id)
    (pending : List Uevent) : lastAbout id (pending ++ [uevent]) = lastAbout id pending := by
  simp [lastAbout, h]

theorem lastAbout_cons {id : String} {last : Uevent} {pending : List Uevent}
    (h : lastAbout id pending = some last) (uevent : Uevent) :
    lastAbout id (uevent :: pending) = some last := by
  rw [lastAbout] at h ⊢
  rw [List.filter_cons]
  split
  · rw [List.getLast?_cons, h]
    rfl
  · exact h

/-- After a device that went, either its place was taken again or that is the last that is told. -/
theorem lastAbout_removed_cons (id : String) (pending : List Uevent) :
    Uevent.added id ∈ pending ∨ lastAbout id (.removed id :: pending) = some (.removed id) := by
  rcases h : lastAbout id pending with - | last
  · right
    rw [lastAbout, List.getLast?_eq_none_iff] at h
    rw [lastAbout, List.filter_cons, h]
    simp [Uevent.id]
  · have hmem := List.mem_filter.1 (List.mem_of_getLast? h)
    have hid : last.id = id := of_decide_eq_true hmem.2
    rcases last with other | other
    · left
      rw [← show other = id from hid]
      exact hmem.1
    · right
      rw [lastAbout_cons h, show other = id from hid]

namespace Sysfs

variable {k : Sysfs} {id i : String}

theorem isWaiting_eq_false_of_root (h : isRootHub id) : k.isWaiting id = false := by
  rw [isWaiting]
  rcases hd : k.device id with - | d
  · rfl
  · exact k.root id d hd h

theorem present_of_isWaiting (h : k.isWaiting id) : k.present id := by
  rw [present]
  exact Option.isSome_of_any h

theorem isWaiting_congr {k' : Sysfs} (h : k'.device = k.device) : k'.isWaiting = k.isWaiting := by
  funext i
  rw [isWaiting, isWaiting, h]

end Sysfs

namespace System

/-- **No device is left dead**, and `held` lists what waits, once the guard was told everything. -/
def Alive (s : System) : Prop :=
  s.Settled →
    (s.guarding = false → ∀ id ∈ s.kept, ∀ d, s.sysfs.device id = some d →
      d.authorized ∧ ∀ i ∈ d.interfaces, i.authorized) ∧
    (s.guarding → ∀ id, id ∈ places s.held ↔ id ∈ s.kept ∧ s.sysfs.isWaiting id)

/-- The guard was told about every device it holds back. -/
def AllKnown (s : System) : Prop := ∀ id ∈ s.kept, s.sysfs.isWaiting id → id ∈ s.known

/-- The guard comes down only after it was told about every device it holds back.  It is not told
that it missed something while the last announcement under way says that a device went whose place
is taken by one that waits.  And while a place is still listed, no device that comes up authorised
takes it unannounced. -/
def Told (step : Step) (s : System) : Prop :=
  match step with
  | .setUnlocked unlocked => s.guarding → (s.enabled && !unlocked) = false → AllKnown s
  | .setEnabled enabled saves =>
    saves → s.guarding → (enabled && !s.unlocked) = false → AllKnown s
  | .missed => ∀ id, s.sysfs.isWaiting id → lastAbout id s.pending ≠ some (.removed id)
  | .plug id device wired lost =>
    lost → id ∈ places s.held → (s.sysfs.plugged device wired).waiting
  | _ => True

/-- Where every device is: known, or about to be told. -/
structure Tracked (s : System) : Prop where
  started : s.guarding → s.started
  /-- While the guard is down, no bus holds anything. -/
  welcomed : s.started → s.guarding = false → ∀ id, s.sysfs.present id → isRootHub id →
    (s.sysfs.defaults id).interface_authorized_default = true
  admitted : s.started → s.guarding = false → ∀ id ∈ s.kept, s.sysfs.isWaiting id = false
  empty : s.guarding = false → s.held = []
  hubs : ∀ id ∈ places s.held, isRootHub id = false
  kept : ∀ id ∈ places s.held, id ∈ s.kept ∨ .added id ∈ s.pending ∨ s.overrun
  listed : s.guarding → ∀ id ∈ s.kept, s.sysfs.isWaiting id → id ∈ s.known → id ∈ places s.held
  told : s.started → ∀ id, s.sysfs.isWaiting id → id ∉ s.known →
    .added id ∈ s.pending ∨ s.overrun
  stale : ∀ id, s.sysfs.isWaiting id → lastAbout id s.pending = some (.removed id) → s.overrun
  waits : ∀ id ∈ places s.held, s.sysfs.isWaiting id ∨ .added id ∈ s.pending ∨
    s.sysfs.present id = false ∧ (.removed id ∈ s.pending ∨ s.overrun)

theorem Tracked.alive {s : System} (h : Tracked s) : Alive s := by
  rintro ⟨hstarted, hpending, hoverrun⟩
  have hempty : ∀ uevent : Uevent, uevent ∉ s.pending := by
    intro uevent
    rw [hpending]
    exact List.not_mem_nil
  have hnone : ¬ s.overrun = true := by
    rw [hoverrun]
    exact Bool.false_ne_true
  constructor
  · intro hg id hid d hd
    have hwaiting := h.admitted hstarted hg id hid
    rw [Sysfs.isWaiting, hd, Option.any_some, Device.waiting, Bool.or_eq_false_iff,
      Bool.not_eq_false', List.any_eq_false] at hwaiting
    exact ⟨hwaiting.1, fun i hi ↦ by simpa using hwaiting.2 i hi⟩
  · intro hg id
    constructor
    · intro hid
      refine ⟨?_, ?_⟩
      · rcases h.kept id hid with hkept | hadded | hlost
        · exact hkept
        · exact absurd hadded (hempty _)
        · exact absurd hlost hnone
      · rcases h.waits id hid with hwaiting | hadded | ⟨-, hremoved | hlost⟩
        · exact hwaiting
        · exact absurd hadded (hempty _)
        · exact absurd hremoved (hempty _)
        · exact absurd hlost hnone
    · rintro ⟨hkept, hwaiting⟩
      refine h.listed hg id hkept hwaiting ?_
      by_contra hunknown
      rcases h.told hstarted id hwaiting hunknown with hadded | hlost
      · exact hempty _ hadded
      · exact hnone hlost

theorem tracked_init (store : Bool) (sysfs : Sysfs) : Tracked (init store sysfs) where
  started h := by cases h
  welcomed h := by cases h
  admitted h := by cases h
  empty _ := rfl
  hubs id hid := by cases hid
  kept id hid := by cases hid
  listed h := by cases h
  told h := by cases h
  stale id _ h := by cases h
  waits id hid := by cases hid

/-! ## The kernel's steps -/

section Kernel

variable {s : System} {id : String} {device : Device}

/-- What holds before a device's coming or going is announced holds of it afterwards. -/
theorem Tracked.announce {uevent : Uevent} {lost : Bool}
    (started : s.guarding → s.started)
    (welcomed : s.started → s.guarding = false → ∀ id, s.sysfs.present id → isRootHub id →
      (s.sysfs.defaults id).interface_authorized_default = true)
    (admitted : s.started → s.guarding = false → ∀ id ∈ s.kept, s.sysfs.isWaiting id = false)
    (empty : s.guarding = false → s.held = [])
    (hubs : ∀ id ∈ places s.held, isRootHub id = false)
    (kept : ∀ id ∈ places s.held,
      (id ∈ s.kept ∨ .added id ∈ s.pending ∨ s.overrun) ∨ uevent = .added id)
    (listed : s.guarding → ∀ id ∈ s.kept, s.sysfs.isWaiting id → id ∈ s.known →
      id ∈ places s.held)
    (told : s.started → ∀ id, s.sysfs.isWaiting id → id ∉ s.known →
      (.added id ∈ s.pending ∨ s.overrun) ∨ uevent = .added id)
    (stale : ∀ id, s.sysfs.isWaiting id → lastAbout id s.pending = some (.removed id) →
      s.overrun ∨ uevent = .added id)
    (gone : ∀ id, s.sysfs.isWaiting id → uevent ≠ .removed id)
    (waits : ∀ id ∈ places s.held, s.sysfs.isWaiting id ∨
      (.added id ∈ s.pending ∨ uevent = .added id ∧ lost = false) ∨
      s.sysfs.present id = false ∧ (.removed id ∈ s.pending ∨ s.overrun ∨ uevent = .removed id)) :
    Tracked (s.announce uevent lost) := by
  unfold System.announce
  cases lost with
  | true =>
    rw [if_pos rfl]
    refine ⟨started, welcomed, admitted, empty, hubs, fun _ _ ↦ .inr (.inr rfl), listed,
      fun _ _ _ _ ↦ .inr rfl, fun _ _ _ ↦ rfl, fun id hid ↦ ?_⟩
    rcases waits id hid with hwaiting | (hadded | ⟨-, h⟩) | ⟨hgone, -⟩
    · exact .inl hwaiting
    · exact .inr (.inl hadded)
    · cases h
    · exact .inr (.inr ⟨hgone, .inr rfl⟩)
  | false =>
    rw [if_neg Bool.false_ne_true]
    have hnew : uevent ∈ s.pending ++ [uevent] := List.mem_append_right _ (List.mem_singleton.2 rfl)
    have hold : ∀ {old}, old ∈ s.pending → old ∈ s.pending ++ [uevent] := List.mem_append_left _
    refine ⟨started, welcomed, admitted, empty, hubs, fun id hid ↦ ?_, listed,
      fun hs id hid hunknown ↦ ?_, fun id hid hlast ↦ ?_, fun id hid ↦ ?_⟩
    · rcases kept id hid with (hkept | hadded | hlost) | rfl
      · exact .inl hkept
      · exact .inr (.inl (hold hadded))
      · exact .inr (.inr hlost)
      · exact .inr (.inl hnew)
    · rcases told hs id hid hunknown with (hadded | hlost) | rfl
      · exact .inl (hold hadded)
      · exact .inr hlost
      · exact .inl hnew
    · by_cases hsame : uevent.id = id
      · subst hsame
        rw [lastAbout_append_self, Option.some_inj] at hlast
        exact absurd hlast (gone uevent.id hid)
      · rw [lastAbout_append_of_ne hsame] at hlast
        rcases stale id hid hlast with hlost | rfl
        · exact hlost
        · exact absurd rfl hsame
    · rcases waits id hid with hwaiting | (hadded | ⟨rfl, -⟩) | ⟨hgone, hremoved | hlost | rfl⟩
      · exact .inl hwaiting
      · exact .inr (.inl (hold hadded))
      · exact .inr (.inl hnew)
      · exact .inr (.inr ⟨hgone, .inl (hold hremoved)⟩)
      · exact .inr (.inr ⟨hgone, .inr hlost⟩)
      · exact .inr (.inr ⟨hgone, .inl hnew⟩)

theorem appear_isWaiting {policy : Policy} (i : String) :
    (s.appear id device policy).sysfs.isWaiting i = (i ≠ id && s.sysfs.isWaiting i) := by
  rw [Sysfs.isWaiting, appear_device]
  by_cases hi : i = id
  · rw [if_pos hi, Option.any_some, Sysfs.rootHub_waiting]
    simp [hi]
  · rw [if_neg hi]
    simp [hi, Sysfs.isWaiting]

theorem Tracked.appear (h : Tracked s) (hid : s.sysfs.present id = false) (hroot : isRootHub id)
    {policy : Policy} {lost : Bool} :
    Tracked ((s.appear id device policy).announce (.added id) lost) := by
  have hwaiting : ∀ {i}, (s.appear id device policy).sysfs.isWaiting i →
      i ≠ id ∧ s.sysfs.isWaiting i := by
    intro i hi
    rw [appear_isWaiting] at hi
    simpa using hi
  have hheld : ∀ i ∈ places s.held, i ≠ id := by
    rintro i hi rfl
    exact absurd ((h.hubs i hi).symm.trans hroot) (by decide)
  refine .announce h.started ?_ ?_ h.empty h.hubs ?_ ?_ ?_ ?_ (fun _ _ ↦ by simp) ?_
  · intro hs hg i hi hroot
    rw [appear_defaults]
    split
    · rfl
    · rename_i hieq
      rw [appear_present, Bool.or_eq_true, decide_eq_true_eq] at hi
      exact h.welcomed hs hg i (hi.resolve_left hieq) hroot
  · intro hs hg i hi
    by_contra hne
    rw [Bool.not_eq_false] at hne
    have := h.admitted hs hg i (List.mem_filter.1 hi).1
    rw [(hwaiting hne).2] at this
    cases this
  · intro i hi
    refine .inl ((h.kept i hi).imp_left fun hkept ↦ List.mem_filter.2 ⟨hkept, ?_⟩)
    exact decide_eq_true (hheld i hi)
  · intro hg i hkept hi hknown
    exact h.listed hg i (List.mem_filter.1 hkept).1 (hwaiting hi).2 (List.mem_filter.1 hknown).1
  · intro hs i hi hunknown
    refine .inl (h.told hs i (hwaiting hi).2 fun hknown ↦ hunknown ?_)
    exact List.mem_filter.2 ⟨hknown, decide_eq_true (hwaiting hi).1⟩
  · intro i hi hlast
    exact .inl (h.stale i (hwaiting hi).2 hlast)
  · intro i hi
    have hne := hheld i hi
    rcases h.waits i hi with hwaits | hadded | ⟨hgone, hremoved⟩
    · left
      rw [appear_isWaiting, hwaits]
      simpa using hne
    · exact .inr (.inl (.inl hadded))
    · refine .inr (.inr ⟨?_, hremoved.imp_right .inl⟩)
      rw [appear_present, hgone]
      simpa using hne

theorem plug_isWaiting {wired : Bool} {hid : isRootHub id = false}
    {hbus : s.sysfs.present device.bus} {i : String} (hi : i ≠ id) :
    (s.plug id device wired hid hbus).sysfs.isWaiting i = s.sysfs.isWaiting i := by
  rw [Sysfs.isWaiting, plug_device, if_neg hi, Sysfs.isWaiting]

theorem Tracked.plug (h : Tracked s) {wired lost : Bool} (hid : isRootHub id = false)
    (hroot : isRootHub device.bus) (hbus : s.sysfs.present device.bus)
    (hplace : lost → id ∈ places s.held → (s.sysfs.plugged device wired).waiting) :
    Tracked ((s.plug id device wired hid hbus).announce (.added id) lost) := by
  have hkept : ∀ {i}, i ≠ id → (i ∈ (s.plug id device wired hid hbus).kept ↔ i ∈ s.kept) := by
    intro i hi
    rw [plug_kept]
    split <;> simp [hi]
  have hknown : ∀ {i}, i ∈ (s.plug id device wired hid hbus).known ↔ i ∈ s.known ∧ i ≠ id := by
    intro i
    exact List.mem_filter.trans (by rw [decide_eq_true_eq])
  refine .announce h.started ?_ ?_ h.empty h.hubs ?_ ?_ ?_ ?_ (fun _ _ ↦ by simp) ?_
  · intro hs hg i hi hroot
    rw [plug_present, Bool.or_eq_true, decide_eq_true_eq] at hi
    rw [plug_defaults]
    refine h.welcomed hs hg i (hi.resolve_left ?_) hroot
    rintro rfl
    exact absurd (hid.symm.trans hroot) (by decide)
  · intro hs hg i hi
    by_cases hieq : i = id
    · -- While the guard is down the bus holds nothing, so the device was not held back.
      have hdefault := h.welcomed hs hg device.bus hbus hroot
      rw [plug_kept, if_neg] at hi
      · exact absurd hieq (of_decide_eq_true (List.mem_filter.1 hi).2)
      · intro hholds
        rw [Sysfs.holds, decide_eq_true_eq] at hholds
        rw [hholds] at hdefault
        cases hdefault
    · rw [plug_isWaiting hieq]
      exact h.admitted hs hg i ((hkept hieq).1 hi)
  · intro i hi
    by_cases hieq : i = id
    · exact .inr (by rw [hieq])
    · exact .inl ((h.kept i hi).imp_left (hkept hieq).2)
  · intro hg i hi hwaiting hiknown
    obtain ⟨hiknown, hieq⟩ := hknown.1 hiknown
    rw [plug_isWaiting hieq] at hwaiting
    exact h.listed hg i ((hkept hieq).1 hi) hwaiting hiknown
  · intro hs i hwaiting hunknown
    by_cases hieq : i = id
    · exact .inr (by rw [hieq])
    · rw [plug_isWaiting hieq] at hwaiting
      exact .inl (h.told hs i hwaiting fun hi ↦ hunknown (hknown.2 ⟨hi, hieq⟩))
  · intro i hwaiting hlast
    by_cases hieq : i = id
    · exact .inr (by rw [hieq])
    · rw [plug_isWaiting hieq] at hwaiting
      exact .inl (h.stale i hwaiting hlast)
  · intro i hi
    by_cases hieq : i = id
    · subst hieq
      cases lost with
      | true =>
        left
        rw [Sysfs.isWaiting, plug_device, if_pos rfl, Option.any_some]
        exact hplace rfl hi
      | false => exact .inr (.inl (.inr ⟨rfl, rfl⟩))
    · rw [plug_isWaiting hieq]
      rcases h.waits i hi with hwaits | hadded | ⟨hgone, hremoved⟩
      · exact .inl hwaits
      · exact .inr (.inl (.inl hadded))
      · refine .inr (.inr ⟨?_, hremoved.imp_right .inl⟩)
        rw [plug_present, hgone]
        simpa using hieq

theorem erase_isWaiting {k : Sysfs} (hidle : k.idle id) (i : String) :
    (k.erase id hidle).isWaiting i = (i ≠ id && k.isWaiting i) := by
  rw [Sysfs.isWaiting, Sysfs.erase_device]
  by_cases hi : i = id
  · rw [if_pos hi]
    simp [hi]
  · rw [if_neg hi]
    simp [hi, Sysfs.isWaiting]

theorem erase_present {k : Sysfs} (hidle : k.idle id) (i : String) :
    (k.erase id hidle).present i = (i ≠ id && k.present i) := by
  rw [Sysfs.present, Sysfs.erase_device]
  by_cases hi : i = id
  · rw [if_pos hi]
    simp [hi]
  · rw [if_neg hi]
    simp [hi, Sysfs.present]

theorem Tracked.unplug (h : Tracked s) (hidle : s.sysfs.idle id) {lost : Bool} :
    Tracked ({ s with sysfs := s.sysfs.erase id hidle }.announce (.removed id) lost) := by
  have hwaiting : ∀ {i}, (s.sysfs.erase id hidle).isWaiting i → i ≠ id ∧ s.sysfs.isWaiting i := by
    intro i hi
    rw [erase_isWaiting] at hi
    simpa using hi
  refine .announce h.started ?_ ?_ h.empty h.hubs (fun i hi ↦ .inl (h.kept i hi)) ?_ ?_ ?_ ?_ ?_
  · intro hs hg i hi hroot
    rw [show (_ : System).sysfs.present i = (s.sysfs.erase id hidle).present i from rfl,
      erase_present, Bool.and_eq_true] at hi
    exact h.welcomed hs hg i hi.2 hroot
  · intro hs hg i hi
    by_contra hne
    rw [Bool.not_eq_false] at hne
    have := h.admitted hs hg i hi
    rw [(hwaiting hne).2] at this
    cases this
  · exact fun hg i hi hiwaiting ↦ h.listed hg i hi (hwaiting hiwaiting).2
  · exact fun hs i hi hunknown ↦ .inl (h.told hs i (hwaiting hi).2 hunknown)
  · exact fun i hi hlast ↦ .inl (h.stale i (hwaiting hi).2 hlast)
  · intro i hi heq
    cases heq
    exact (hwaiting hi).1 rfl
  · intro i hi
    by_cases hieq : i = id
    · subst hieq
      refine .inr (.inr ⟨?_, .inr (.inr rfl)⟩)
      rw [erase_present]
      simp
    · rcases h.waits i hi with hwaits | hadded | ⟨hgone, hremoved⟩
      · left
        rw [erase_isWaiting, hwaits]
        simpa using hieq
      · exact .inr (.inl (.inl hadded))
      · refine .inr (.inr ⟨?_, hremoved.imp_right .inl⟩)
        rw [erase_present, hgone, Bool.and_false]

end Kernel

/-! ## The daemon's steps -/

section Act

variable {s : System} {d : Daemon} {id : String} {pending : List Uevent}

theorem mem_kept_act {i : String} : i ∈ (s.act d).kept ↔ i ∈ s.kept ∨ i ∈ places d.held :=
  List.mem_append

theorem mem_tail {uevent other : Uevent} (hpending : s.pending = other :: pending)
    (h : uevent ∈ s.pending) (hne : uevent ≠ other) : uevent ∈ pending := by
  rw [hpending] at h
  exact (List.mem_cons.1 h).resolve_left hne

/-- Nothing happened to the devices or to the list. -/
theorem Tracked.act_self (h : Tracked s) (hguarding : d.guarding = s.guarding)
    (hsysfs : d.sysfs = s.sysfs) (hheld : d.held = s.held) : Tracked (s.act d) := by
  have hs : (s.act d).sysfs = s.sysfs := hsysfs
  have hh : (s.act d).held = s.held := hheld
  have hg : (s.act d).guarding = s.guarding := hguarding
  refine ⟨?_, ?_, ?_, ?_, ?_, ?_, ?_, ?_, ?_, ?_⟩
  · rw [hg]
    exact h.started
  · rw [hg, hs]
    exact h.welcomed
  · intro hstarted hdown i hi
    rw [hg] at hdown
    rw [hs]
    rw [mem_kept_act, hheld, h.empty hdown] at hi
    exact h.admitted hstarted hdown i (hi.resolve_right List.not_mem_nil)
  · rw [hg, hh]
    exact h.empty
  · rw [hh]
    exact h.hubs
  · intro i hi
    exact .inl (mem_kept_act.2 (.inr hi))
  · intro hup i hi hwaiting hknown
    rw [hg] at hup
    rw [hs] at hwaiting
    rw [hh]
    rw [mem_kept_act, hheld] at hi
    exact hi.elim (fun hi ↦ h.listed hup i hi hwaiting hknown) fun hi ↦ hi
  · rw [hs]
    exact h.told
  · rw [hs]
    exact h.stale
  · rw [hh, hs]
    exact h.waits

/-- **The guard was told that a device came**, and lists it if it waits. -/
theorem Tracked.pop_added (h : Tracked s) (hpending : s.pending = .added id :: pending)
    (hguarding : d.guarding = s.guarding) (hdown : s.guarding = false → d.sysfs = s.sysfs ∧
      d.held = []) (hpresent : ∀ i, d.sysfs.present i = s.sysfs.present i)
    (hwaiting : ∀ i, d.sysfs.isWaiting i → s.sysfs.isWaiting i)
    (hother : ∀ i, i ≠ id → d.sysfs.isWaiting i = s.sysfs.isWaiting i ∧
      (i ∈ places d.held ↔ i ∈ places s.held))
    (hself : s.guarding → (id ∈ places d.held ↔ d.sysfs.isWaiting id)) (fresh : List String) :
    Tracked { s.act d with pending, fresh, known := id :: s.known } where
  started hg := h.started (hguarding ▸ hg)
  welcomed hs hg i hi hroot := by
    have hg : s.guarding = false := hguarding.symm.trans hg
    rw [show (s.act d).sysfs = s.sysfs from (hdown hg).1]
    exact h.welcomed hs hg i ((hpresent i).symm.trans hi) hroot
  admitted hs hg i hi := by
    have hg : s.guarding = false := hguarding.symm.trans hg
    rw [show (s.act d).sysfs = s.sysfs from (hdown hg).1]
    rw [mem_kept_act, (hdown hg).2] at hi
    exact h.admitted hs hg i (hi.resolve_right List.not_mem_nil)
  empty hg := (hdown (hguarding.symm.trans hg)).2
  hubs i hi := by
    by_cases hieq : i = id
    · rw [hieq] at hi ⊢
      rcases hg : s.guarding with - | -
      · rw [show (s.act d).held = [] from (hdown hg).2] at hi
        cases hi
      · by_contra hroot
        rw [Bool.not_eq_false] at hroot
        have := (hself hg).1 hi
        rw [Sysfs.isWaiting_eq_false_of_root hroot] at this
        cases this
    · exact h.hubs i ((hother i hieq).2.1 hi)
  kept i hi := .inl (mem_kept_act.2 (.inr hi))
  listed hg i hi hiwaiting hknown := by
    have hg : s.guarding := hguarding ▸ hg
    by_cases hieq : i = id
    · rw [hieq] at hiwaiting ⊢
      exact (hself hg).2 hiwaiting
    · rcases mem_kept_act.1 hi with hi | hi
      · refine (hother i hieq).2.2 (h.listed hg i hi (hwaiting i hiwaiting) ?_)
        exact (List.mem_cons.1 hknown).resolve_left hieq
      · exact hi
  told hs i hi hunknown := by
    rw [List.mem_cons, not_or] at hunknown
    refine (h.told hs i (hwaiting i hi) hunknown.2).imp_left fun hadded ↦ ?_
    refine mem_tail hpending hadded fun heq ↦ hunknown.1 ?_
    cases heq
    rfl
  stale i hi hlast := by
    refine h.stale i (hwaiting i hi) ?_
    rw [hpending]
    exact lastAbout_cons hlast _
  waits i hi := by
    by_cases hieq : i = id
    · rw [hieq] at hi ⊢
      rcases hg : s.guarding with - | -
      · rw [show (s.act d).held = [] from (hdown hg).2] at hi
        cases hi
      · exact .inl ((hself hg).1 hi)
    · obtain ⟨hsame, hheld⟩ := hother i hieq
      rcases h.waits i (hheld.1 hi) with hwaits | hadded | ⟨hgone, hremoved⟩
      · exact .inl (hsame.trans hwaits)
      · refine .inr (.inl (mem_tail hpending hadded fun heq ↦ hieq ?_))
        cases heq
        rfl
      · exact .inr (.inr ⟨(hpresent i).trans hgone, hremoved.imp_left fun hremoved ↦
          mem_tail hpending hremoved (by simp)⟩)

/-- **The guard was told that a device went.**  It may have come back since; then it is told so
later, or it is told that it missed something. -/
theorem Tracked.pop_removed (h : Tracked s) (hpending : s.pending = .removed id :: pending) :
    Tracked { s.act { s.toDaemon with held := remove id s.held } with
      pending, known := s.known.filter (· ≠ id) } where
  started := h.started
  welcomed := h.welcomed
  admitted hs hg i hi := by
    rw [mem_kept_act, h.empty hg] at hi
    exact h.admitted hs hg i (hi.resolve_right List.not_mem_nil)
  empty hg := by
    change remove id s.held = []
    rw [h.empty hg]
    rfl
  hubs i hi := h.hubs i (mem_places_remove.1 hi).1
  kept i hi := .inl (mem_kept_act.2 (.inr hi))
  listed hg i hi hwaiting hknown := by
    obtain ⟨hknown, hne⟩ := List.mem_filter.1 hknown
    rcases mem_kept_act.1 hi with hi | hi
    · exact mem_places_remove.2 ⟨h.listed hg i hi hwaiting hknown, of_decide_eq_true hne⟩
    · exact hi
  told hs i hi hunknown := by
    by_cases hieq : i = id
    · rw [hieq] at hi ⊢
      rcases lastAbout_removed_cons id pending with hadded | hlast
      · exact .inl hadded
      · rw [← hpending] at hlast
        exact .inr (h.stale id hi hlast)
    · have hbefore : i ∉ s.known := fun hknown ↦
        hunknown (List.mem_filter.2 ⟨hknown, decide_eq_true hieq⟩)
      exact (h.told hs i hi hbefore).imp_left fun hadded ↦ mem_tail hpending hadded (by simp)
  stale i hi hlast := by
    refine h.stale i hi ?_
    rw [hpending]
    exact lastAbout_cons hlast _
  waits i hi := by
    obtain ⟨hi, hne⟩ := mem_places_remove.1 hi
    rcases h.waits i hi with hwaits | hadded | ⟨hgone, hremoved⟩
    · exact .inl hwaits
    · exact .inr (.inl (mem_tail hpending hadded (by simp)))
    · refine .inr (.inr ⟨hgone, hremoved.imp_left fun hremoved ↦ ?_⟩)
      refine mem_tail hpending hremoved fun heq ↦ hne ?_
      cases heq
      rfl

theorem Tracked.handle (h : Tracked s) : Tracked s.handle := by
  unfold System.handle
  rcases hpending : s.pending with - | ⟨id | id, pending⟩
  · exact h
  · rcases hg : s.guarding with - | -
    · have hdaemon : (s.toDaemon.handle (.added id)).2 = s.toDaemon := by
        rw [Daemon.handle, Daemon.track]
        exact if_neg (by rw [hg]; exact Bool.false_ne_true)
      simp only [Uevent.event, hdaemon]
      exact h.pop_added hpending rfl (fun _ ↦ ⟨rfl, h.empty hg⟩) (fun _ ↦ rfl) (fun _ hi ↦ hi)
        (fun _ _ ↦ ⟨rfl, .rfl⟩) (fun hup ↦ absurd (hg.symm.trans hup) (by decide)) _
    · have hdaemon : (s.toDaemon.handle (.added id)).2 = s.toDaemon.welcome id := if_pos hg
      have hnot : ¬ s.guarding = false := by
        rw [hg]
        decide
      by_cases hroot : isRootHub id
      · have hwelcome : s.toDaemon.welcome id =
            { s.toDaemon with sysfs := s.sysfs.holdNewDevicesOn id } := if_pos hroot
        have hdevice : (s.sysfs.holdNewDevicesOn id).device = s.sysfs.device :=
          Sysfs.setDefaults_device _ _ _
        have hwaiting := Sysfs.isWaiting_congr hdevice
        simp only [Uevent.event, hdaemon, hwelcome]
        refine h.pop_added (d := { s.toDaemon with sysfs := s.sysfs.holdNewDevicesOn id }) hpending
          rfl (absurd · hnot) (fun i ↦ ?_) (fun i hi ↦ ?_)
          (fun i _ ↦ ⟨congrFun hwaiting i, .rfl⟩) (fun _ ↦ ?_) _
        · rw [Sysfs.present, hdevice, Sysfs.present]
        · rwa [hwaiting] at hi
        · rw [Sysfs.isWaiting_eq_false_of_root hroot]
          exact iff_of_false (fun hid ↦ absurd ((h.hubs id hid).symm.trans hroot) (by decide))
            (by decide)
      · have hwelcome : s.toDaemon.welcome id = s.toDaemon.hold id := if_neg hroot
        have hhold := Daemon.Holding.hold s.toDaemon id
        simp only [Uevent.event, hdaemon, hwelcome]
        refine h.pop_added (d := s.toDaemon.hold id) hpending rfl (absurd · hnot) hhold.present
          hhold.waiting (fun i hi ↦ ⟨?_, ?_⟩) (fun _ ↦ ?_) _
        · rw [Sysfs.isWaiting, Daemon.hold_device, if_neg hi, Sysfs.isWaiting]
        · rw [Daemon.mem_held_hold, if_neg hi]
        · rw [Daemon.mem_held_hold, if_pos rfl]
  · exact h.pop_removed hpending

/-- **The guard looked at every device**, so it knows them all. -/
theorem Tracked.look (h : Tracked s)
    (hstale : ∀ id, s.sysfs.isWaiting id → lastAbout id s.pending ≠ some (.removed id))
    (hguarding : d.guarding = s.guarding)
    (hdown : s.guarding = false → d.sysfs = s.sysfs ∧ d.held = [])
    (hpresent : ∀ i, d.sysfs.present i = s.sysfs.present i)
    (hwaiting : ∀ i, d.sysfs.isWaiting i → s.sysfs.isWaiting i)
    (hlists : s.guarding → ∀ i, d.sysfs.isWaiting i → i ∈ places d.held)
    (hwaits : ∀ i ∈ places d.held, d.sysfs.isWaiting i ∨
      i ∈ places s.held ∧ s.sysfs.present i ∧ s.sysfs.isWaiting i = false) :
    Tracked { s.act d with overrun := false, known := s.sysfs.ids } where
  started hg := h.started (hguarding ▸ hg)
  welcomed hs hg i hi hroot := by
    have hg : s.guarding = false := hguarding.symm.trans hg
    rw [show (s.act d).sysfs = s.sysfs from (hdown hg).1]
    exact h.welcomed hs hg i ((hpresent i).symm.trans hi) hroot
  admitted hs hg i hi := by
    have hg : s.guarding = false := hguarding.symm.trans hg
    rw [show (s.act d).sysfs = s.sysfs from (hdown hg).1]
    rw [mem_kept_act, (hdown hg).2] at hi
    exact h.admitted hs hg i (hi.resolve_right List.not_mem_nil)
  empty hg := (hdown (hguarding.symm.trans hg)).2
  hubs i hi := by
    rcases hwaits i hi with hwaits | ⟨hi, -⟩
    · by_contra hroot
      rw [Bool.not_eq_false] at hroot
      rw [Sysfs.isWaiting_eq_false_of_root hroot] at hwaits
      cases hwaits
    · exact h.hubs i hi
  kept i hi := .inl (mem_kept_act.2 (.inr hi))
  listed hg i _ hi _ := hlists (hguarding ▸ hg) i hi
  told _ i hi hunknown := by
    refine absurd ((s.sysfs.mem_ids i).2 ?_) hunknown
    exact Sysfs.present_of_isWaiting (hwaiting i hi)
  stale i hi hlast := absurd hlast (hstale i (hwaiting i hi))
  waits i hi := by
    rcases hwaits i hi with hwaits | ⟨hi, hpresent, hnot⟩
    · exact .inl hwaits
    · rcases h.waits i hi with hwaits | hadded | ⟨hgone, -⟩
      · rw [hnot] at hwaits
        cases hwaits
      · exact .inr (.inl hadded)
      · rw [hpresent] at hgone
        cases hgone

theorem Tracked.missed (h : Tracked s)
    (hstale : ∀ id, s.sysfs.isWaiting id → lastAbout id s.pending ≠ some (.removed id)) :
    Tracked { s.act (s.toDaemon.handle .missed).2 with
      overrun := false, known := s.sysfs.ids } := by
  change Tracked { s.act s.toDaemon.catchUp with overrun := false, known := s.sysfs.ids }
  let d : Daemon :=
    { s.toDaemon with held := s.held.filter fun device ↦ s.sysfs.present device.1 }
  have hmem : ∀ {i}, i ∈ places d.held ↔ i ∈ places s.held ∧ s.sysfs.present i :=
    mem_places_filter (p := s.sysfs.present)
  by_cases hg : s.guarding
  · have hcatch : s.toDaemon.catchUp = d.holdWaiting s.sysfs.ids := if_pos hg
    have hhold := d.holding_holdWaiting s.sysfs.ids
    rw [hcatch]
    refine h.look hstale hhold.guarding (fun hd ↦ absurd (hd.symm.trans hg) (by decide))
      hhold.present hhold.waiting (fun _ i hi ↦ d.mem_held_holdWaiting hi) fun i hi ↦ ?_
    by_cases hwaiting : s.sysfs.isWaiting i
    · exact .inl (hhold.waits i (fun _ ↦ hwaiting) hi)
    · by_cases hbefore : i ∈ places d.held
      · exact .inr ⟨(hmem.1 hbefore).1, (hmem.1 hbefore).2, by simpa using hwaiting⟩
      · exact .inl (hhold.waits i (fun hi ↦ absurd hi hbefore) hi)
  · have hcatch : s.toDaemon.catchUp = d := if_neg hg
    have hempty : d.held = [] := by
      change (s.held.filter fun device ↦ s.sysfs.present device.1) = []
      rw [h.empty (by simpa using hg)]
      rfl
    rw [hcatch]
    refine h.look (d := d) hstale rfl (fun _ ↦ ⟨rfl, hempty⟩) (fun _ ↦ rfl) (fun _ hi ↦ hi)
      (fun hup ↦ absurd hup hg) fun i hi ↦ ?_
    rw [hempty] at hi
    cases hi

/-- The guard goes up over devices that all came in before. -/
theorem Tracked.raise (h : Tracked s) (hstarted : s.started) (hs : s.guarding = false)
    (hup : d.guarding = true) (hdevice : d.sysfs.device = s.sysfs.device)
    (hheld : d.held = s.held) : Tracked (s.act d) := by
  have hempty : (s.act d).held = [] := hheld.trans (h.empty hs)
  have hwaiting : (s.act d).sysfs.isWaiting = s.sysfs.isWaiting := Sysfs.isWaiting_congr hdevice
  have hnot : ∀ {p : Prop}, (s.act d).guarding = false → p := fun hd ↦
    absurd (hup.symm.trans hd) (by decide)
  refine ⟨fun _ ↦ hstarted, fun _ hd ↦ hnot hd, fun _ hd ↦ hnot hd, hnot, ?_, ?_, ?_, ?_, ?_, ?_⟩
  · rw [hempty]
    exact fun i hi ↦ absurd hi List.not_mem_nil
  · rw [hempty]
    exact fun i hi ↦ absurd hi List.not_mem_nil
  · intro _ i hi hiwaiting
    rw [mem_kept_act, hheld, h.empty hs] at hi
    rw [hwaiting, h.admitted hstarted hs i (hi.resolve_right List.not_mem_nil)] at hiwaiting
    cases hiwaiting
  · rw [hwaiting]
    exact h.told
  · rw [hwaiting]
    exact h.stale
  · rw [hempty]
    exact fun i hi ↦ absurd hi List.not_mem_nil

/-- **The guard comes down**, and what it holds back is let in: it was told about all of it. -/
theorem Tracked.lower (h : Tracked s) (hs : s.guarding) (hknown : AllKnown s)
    (hdown : d.guarding = false) (hheld : d.held = [])
    (hsysfs : d.sysfs = s.toDaemon.release.2.sysfs) : Tracked (s.act d) := by
  have hempty : (s.act d).held = [] := hheld
  have hrelease : (s.act d).sysfs = s.toDaemon.release.2.sysfs := hsysfs
  have hwaiting : ∀ {i}, (s.act d).sysfs.isWaiting i →
      s.sysfs.isWaiting i ∧ i ∉ places s.held := by
    intro i hi
    rw [hrelease, Daemon.release_isWaiting, Bool.and_eq_true, decide_eq_true_eq] at hi
    exact hi
  refine ⟨fun _ ↦ h.started hs, ?_, ?_, fun _ ↦ hempty, ?_, ?_, ?_, ?_, ?_, ?_⟩
  · intro _ _ i hi hroot
    rw [hrelease] at hi ⊢
    rw [Daemon.release_present] at hi
    exact Daemon.release_defaults _ hi hroot
  · intro _ _ i hi
    rw [mem_kept_act, hheld] at hi
    by_contra hne
    rw [Bool.not_eq_false] at hne
    obtain ⟨hbefore, hnot⟩ := hwaiting hne
    have hkept := hi.resolve_right List.not_mem_nil
    exact hnot (h.listed hs i hkept hbefore (hknown i hkept hbefore))
  · rw [hempty]
    exact fun i hi ↦ absurd hi List.not_mem_nil
  · rw [hempty]
    exact fun i hi ↦ absurd hi List.not_mem_nil
  · exact fun hup ↦ absurd (hdown.symm.trans hup) (by decide)
  · exact fun hstarted i hi ↦ h.told hstarted i (hwaiting hi).1
  · exact fun i hi ↦ h.stale i (hwaiting hi).1
  · rw [hempty]
    exact fun i hi ↦ absurd hi List.not_mem_nil

theorem Tracked.act_settle (h : Tracked s) (hstarted : s.started)
    (hguarding : d.guarding = s.guarding) (hsysfs : d.sysfs = s.sysfs) (hheld : d.held = s.held)
    (hknown : s.guarding → d.shouldGuard = false → AllKnown s) : Tracked (s.act d.settle.2) := by
  rcases d.settle_cases with ⟨hsame, hsysfs', hheld'⟩ | ⟨hdown, hup, hsysfs', hheld'⟩ |
    ⟨hup, hshould, hdown, hsysfs', hheld'⟩
  · exact h.act_self (hsame.trans hguarding) (hsysfs'.trans hsysfs) (hheld'.trans hheld)
  · refine h.raise hstarted (hguarding.symm.trans hdown) hup ?_ (hheld'.trans hheld)
    rw [hsysfs', Sysfs.holdNewDevices_device, hsysfs]
  · have hs : s.guarding := hguarding.symm.trans hup
    refine h.lower hs (hknown hs hshould) hdown hheld' ?_
    rw [hsysfs', Daemon.release, Daemon.release, hheld, hsysfs]

theorem Tracked.start (h : Tracked s) (hstarted : s.started = false) {unlocked : Bool} :
    Tracked (s.step (.start unlocked)) := by
  rw [System.step, if_neg (by rw [hstarted]; exact Bool.false_ne_true)]
  have hlisted : ∀ {i}, s.sysfs.isWaiting i → i ∈ s.sysfs.ids := fun hi ↦
    (s.sysfs.mem_ids _).2 (Sysfs.present_of_isWaiting hi)
  rcases Daemon.start_cases s.store s.sysfs unlocked with
    ⟨d, hhold, hup, hheld, hsysfs, hlists⟩ | ⟨hdown, hheld, hsysfs⟩
  · have hup : (Daemon.start s.store s.sysfs unlocked).guarding = true := hhold.guarding.trans hup
    have hwaiting : ∀ {i}, (Daemon.start s.store s.sysfs unlocked).sysfs.isWaiting i →
        s.sysfs.isWaiting i := by
      intro i hi
      have := hhold.waiting i hi
      rwa [hsysfs, Sysfs.isWaiting, Sysfs.holdNewDevices_device] at this
    have hwaits : ∀ i ∈ places (Daemon.start s.store s.sysfs unlocked).held,
        (Daemon.start s.store s.sysfs unlocked).sysfs.isWaiting i := by
      intro i hi
      refine hhold.waits i (fun hi ↦ ?_) hi
      rw [hheld] at hi
      cases hi
    have hnot : ∀ {p : Prop}, (Daemon.start s.store s.sysfs unlocked).guarding = false → p :=
      fun hd ↦ absurd (hup.symm.trans hd) (by decide)
    refine ⟨fun _ ↦ rfl, fun _ hd ↦ hnot hd, fun _ hd ↦ hnot hd, hnot, fun i hi ↦ ?_,
      fun i hi ↦ .inl ?_, fun _ i _ hi _ ↦ hlists i hi, fun _ i hi hunknown ↦ ?_,
      fun i hi hlast ↦ ?_, fun i hi ↦ .inl (hwaits i hi)⟩
    · by_contra hroot
      rw [Bool.not_eq_false] at hroot
      have := hwaits i hi
      rw [Sysfs.isWaiting_eq_false_of_root hroot] at this
      cases this
    · exact List.mem_append_left _ (mem_kept_act.2 (.inr hi))
    · exact absurd (hlisted (hwaiting hi)) hunknown
    · exact h.stale i (hwaiting hi) hlast
  · have hwaiting : ∀ i, (Daemon.start s.store s.sysfs unlocked).sysfs.isWaiting i = false := by
      intro i
      rw [hsysfs, Sysfs.admitAll_isWaiting, Sysfs.isWaiting, Sysfs.welcomeNewDevices_device,
        ← Sysfs.isWaiting, Bool.and_eq_false_imp]
      intro hi
      rw [decide_eq_false_iff_not, not_not, Sysfs.waiting, List.mem_filter]
      exact ⟨hlisted hi, hi⟩
    have hempty : places (Daemon.start s.store s.sysfs unlocked).held = [] := by
      rw [hheld]
      rfl
    refine ⟨fun _ ↦ rfl, fun _ _ i hi hroot ↦ ?_, fun _ _ i _ ↦ hwaiting i, fun _ ↦ hheld,
      fun i hi ↦ ?_, fun i hi ↦ ?_, fun hg ↦ ?_, fun _ i hi ↦ ?_, fun i hi ↦ ?_, fun i hi ↦ ?_⟩
    · change (Daemon.start s.store s.sysfs unlocked).sysfs.present i = true at hi
      change ((Daemon.start s.store s.sysfs unlocked).sysfs.defaults i).2 = true
      rw [hsysfs, Sysfs.admitAll_present, Sysfs.present, Sysfs.welcomeNewDevices_device] at hi
      rw [hsysfs, Sysfs.admitAll_defaults]
      exact Sysfs.welcomeNewDevices_defaults _ hi hroot
    · exact absurd (hempty ▸ hi) List.not_mem_nil
    · exact absurd (hempty ▸ hi) List.not_mem_nil
    · exact absurd (hdown.symm.trans hg) (by decide)
    · exact absurd ((hwaiting i).symm.trans hi) (by decide)
    · exact absurd ((hwaiting i).symm.trans hi) (by decide)
    · exact absurd (hempty ▸ hi) List.not_mem_nil

end Act

theorem Tracked.step {s : System} (h : Tracked s) (step : Step) (hok : Told step s) :
    Tracked (s.step step) := by
  cases step with
  | appear id device policy lost =>
    rw [System.step]
    split
    · rename_i hnew
      exact h.appear hnew.1 hnew.2
    · exact h
  | plug id device wired lost =>
    rw [System.step]
    split
    · rename_i hnew
      exact h.plug hnew.2.1 hnew.2.2.1 hnew.2.2.2 hok
    · exact h
  | unplug id lost =>
    rw [System.step]
    split
    · rename_i hthere
      exact h.unplug hthere.2
    · exact h
  | start unlocked =>
    by_cases hstarted : s.started
    · rw [System.step, if_pos hstarted]
      exact h
    · exact h.start (by simpa using hstarted)
  | handle =>
    rw [System.step]
    split
    · exact h.handle
    · exact h
  | missed =>
    rw [System.step]
    split
    · exact h.missed hok
    · exact h
  | setUnlocked unlocked =>
    rw [System.step]
    split
    · rename_i hstarted
      exact h.act_settle (d := { s.toDaemon with unlocked }) hstarted rfl rfl rfl hok
    · exact h
  | setEnabled enabled saves =>
    rw [System.step]
    split
    · rename_i hstarted
      cases saves with
      | true =>
        exact h.act_settle (d := { s.toDaemon with store := enabled, enabled }) hstarted rfl rfl rfl
          (hok rfl)
      | false => exact h.act_self rfl rfl rfl
    · exact h
  | takeReleased =>
    rw [System.step]
    split
    · exact h.act_self rfl rfl rfl
    · exact h

end System

end Usb

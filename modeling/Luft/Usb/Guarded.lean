import Luft.Lib.Runs
import Luft.Usb.Plugging

/-!
# While the guard is up

Once everything that happened was handled and the guard is up, every bus is to hold new devices, and
of what was connected while it was up only keyboards, mice and hubs are to be let in (`Guarded`).

A bus that comes up holds nothing until its announcement was handled.  So the guard is safe as long
as no such announcement is lost and nothing is plugged into such a bus before (`Announced`): the
buses that hold nothing yet are then among those whose announcement is pending (`Guarding`).  When
the announcement is lost, the look at all devices that makes up for it leaves the buses out.
-/

set_option autoImplicit false

namespace Usb

/-! ## A device that is only let in in part -/

/-- Only what may be used while locked is authorised, and that is so too once the device is. -/
def Partly (k : Sysfs) (d : Device) : Prop :=
  (∀ i ∈ d.interfaces, i.authorized → i.usable) ∧
    (d.authorized = false → k.interfaceDefault d = false)

section

variable {k k' : Sysfs} {d : Device}

theorem partly_authorizeUsable (h : ∀ i ∈ d.interfaces, i.authorized → i.usable) :
    ∀ i ∈ d.authorizeUsable.interfaces, i.authorized → i.usable := by
  intro i hi ha
  obtain ⟨j, hj, rfl⟩ := List.mem_map.1 hi
  by_cases hu : (!j.authorized && j.usable) = true
  · rw [if_pos hu]
    exact (Bool.and_eq_true_iff.1 hu).2
  · rw [if_neg hu] at ha ⊢
    exact h j hj ha

theorem Partly.usablePart (h : Partly k d) : Partly k (k.usablePart d) := by
  unfold Sysfs.usablePart
  by_cases ha : d.authorized
  · simp only [ha, Bool.not_true, Bool.false_and, Bool.false_eq_true, if_false, if_true]
    exact ⟨partly_authorizeUsable h.1, fun hd ↦ absurd (ha.symm.trans hd) (by decide)⟩
  · rw [Bool.not_eq_true] at ha
    split
    · exact h
    · rw [ha, if_neg Bool.false_ne_true]
      refine ⟨partly_authorizeUsable ?_, fun hd ↦ absurd hd (by simp [Device.authorizeUsable,
        Device.authorize])⟩
      intro i hi hauthorized
      obtain ⟨c, -, rfl⟩ := List.mem_map.1 hi
      rw [h.2 ha] at hauthorized
      cases hauthorized

theorem Partly.congr (h : Partly k d) (hdefaults : k'.defaults d.bus = k.defaults d.bus) :
    Partly k' d := by
  refine ⟨h.1, fun ha ↦ ?_⟩
  rw [Sysfs.interfaceDefault, hdefaults]
  exact h.2 ha

/-- On a bus that holds new devices a device comes up closed. -/
theorem partly_plugged (h : k.holds d.bus) (wired : Bool) : Partly k (k.plugged d wired) := by
  rw [k.plugged_of_holds h wired]
  refine ⟨fun i hi ↦ absurd hi List.not_mem_nil, fun _ ↦ ?_⟩
  rw [Sysfs.holds, decide_eq_true_eq] at h
  rw [Sysfs.interfaceDefault, h]
  rfl

theorem partly_rootHub (id : String) : Partly k (Sysfs.rootHub id d) := by
  constructor
  · intro i hi _
    obtain ⟨c, -, rfl⟩ := List.mem_map.1 hi
    have hclass : read (some "09".toList) = some ['0', '9'] := by decide
    rw [Interface.usable, Interface.class, hclass]
    decide
  · intro ha
    cases ha

end

namespace System

/-- **What the guard is for**, once it was told everything. -/
def Guarded (s : System) : Prop :=
  s.Settled → s.guarding →
    (∀ id, s.sysfs.present id → isRootHub id → s.sysfs.holds id) ∧
      ∀ id ∈ s.arrived, ∀ d, s.sysfs.device id = some d →
        ∀ i ∈ d.interfaces, i.authorized → i.usable

/-- While the guard is up, no announcement of a root hub is lost, and nothing is plugged into a bus
before the announcement of its root hub was handled. -/
def Announced (step : Step) (s : System) : Prop :=
  match step with
  | .appear _ _ _ lost => s.guarding → lost = false
  | .plug _ device _ _ => s.guarding → device.bus ∉ s.fresh
  | _ => True

/-- What keeps the guard safe before everything was handled. -/
structure Guarding (s : System) : Prop where
  started : s.guarding → s.started
  buses : s.guarding → ∀ id, s.sysfs.present id → isRootHub id →
    s.sysfs.holds id ∨ id ∈ s.fresh
  told : ∀ id ∈ s.fresh, Uevent.added id ∈ s.pending
  partly : s.guarding → ∀ id ∈ s.arrived, ∀ d, s.sysfs.device id = some d → Partly s.sysfs d

theorem Guarding.guarded {s : System} (h : Guarding s) : Guarded s := by
  intro hsettled hguarding
  refine ⟨fun id hid hroot ↦ ?_, fun id hid d hd ↦ (h.partly hguarding id hid d hd).1⟩
  rcases h.buses hguarding id hid hroot with hholds | hfresh
  · exact hholds
  · have := h.told id hfresh
    rw [hsettled.2.1] at this
    cases this

theorem guarding_init (store : Bool) (sysfs : Sysfs) : Guarding (init store sysfs) where
  started h := by cases h
  buses h := by cases h
  told id hid := by cases hid
  partly h := by cases h

/-! ## The kernel's steps -/

section Kernel

variable {s : System} {id : String} {device : Device}

theorem Guarding.announce {uevent : Uevent} {lost : Bool}
    (hstarted : s.guarding → s.started)
    (hbuses : s.guarding → ∀ id, s.sysfs.present id → isRootHub id →
      s.sysfs.holds id ∨ id ∈ s.fresh)
    (htold : ∀ id ∈ s.fresh, Uevent.added id ∈ s.pending ∨ uevent = .added id ∧ lost = false)
    (hpartly : s.guarding → ∀ id ∈ s.arrived, ∀ d, s.sysfs.device id = some d →
      Partly s.sysfs d) : Guarding (s.announce uevent lost) := by
  unfold System.announce
  cases lost with
  | true =>
    refine ⟨hstarted, hbuses, fun id hid ↦ ?_, hpartly⟩
    rcases htold id hid with h | ⟨-, h⟩
    · exact h
    · cases h
  | false =>
    refine ⟨hstarted, hbuses, fun id hid ↦ ?_, hpartly⟩
    rcases htold id hid with h | ⟨rfl, -⟩
    · exact List.mem_append_left _ h
    · exact List.mem_append_right _ (List.mem_singleton.2 rfl)

theorem Guarding.appear (h : Guarding s) (hid : s.sysfs.present id = false) {policy : Policy}
    {lost : Bool} (hlost : s.guarding → lost = false) :
    Guarding ((s.appear id device policy).announce (.added id) lost) := by
  refine .announce h.started ?_ ?_ ?_
  · intro (hg : s.guarding) i hi hroot
    rw [appear_present, Bool.or_eq_true, decide_eq_true_eq] at hi
    rw [appear_fresh, if_pos hg, List.mem_cons]
    by_cases hieq : i = id
    · exact .inr (.inl hieq)
    · rw [Sysfs.holds, appear_defaults, if_neg hieq]
      exact (h.buses hg i (hi.resolve_left hieq) hroot).imp_right .inr
  · intro i hi
    rw [appear_fresh] at hi
    by_cases hg : s.guarding
    · rw [if_pos hg] at hi
      rcases List.mem_cons.1 hi with rfl | hi
      · exact .inr ⟨rfl, hlost hg⟩
      · exact .inl (h.told i hi)
    · rw [if_neg hg] at hi
      exact .inl (h.told i hi)
  · intro (hg : s.guarding) i hi d hd
    rw [appear_arrived, if_pos hg] at hi
    rw [appear_device] at hd
    by_cases hieq : i = id
    · rw [if_pos hieq, Option.some_inj] at hd
      rw [← hd]
      exact partly_rootHub id
    · rw [if_neg hieq] at hd
      have hmem := (List.mem_filter.1 ((List.mem_cons.1 hi).resolve_left hieq)).1
      refine (h.partly hg i hmem d hd).congr ?_
      rw [appear_defaults, if_neg (s.sysfs.bus_ne hid hd)]

theorem Guarding.plug (h : Guarding s) {wired lost : Bool} (hid : isRootHub id = false)
    (hroot : isRootHub device.bus) (hbus : s.sysfs.present device.bus)
    (hfresh : s.guarding → device.bus ∉ s.fresh) :
    Guarding ((s.plug id device wired hid hbus).announce (.added id) lost) := by
  refine .announce h.started ?_ (fun i hi ↦ .inl (h.told i hi)) ?_
  · intro (hg : s.guarding) i hi hroot
    rw [plug_present, Bool.or_eq_true, decide_eq_true_eq] at hi
    have hieq : i ≠ id := by
      rintro rfl
      rw [hid] at hroot
      cases hroot
    rw [Sysfs.holds, plug_defaults]
    exact h.buses hg i (hi.resolve_left hieq) hroot
  · intro (hg : s.guarding) i hi d hd
    rw [plug_arrived, if_pos hg] at hi
    rw [plug_device] at hd
    by_cases hieq : i = id
    · rw [if_pos hieq, Option.some_inj] at hd
      rw [← hd]
      have hholds := (h.buses hg device.bus hbus hroot).resolve_right (hfresh hg)
      exact (partly_plugged hholds wired).congr (congrFun plug_defaults _)
    · rw [if_neg hieq] at hd
      have hmem := (List.mem_filter.1 ((List.mem_cons.1 hi).resolve_left hieq)).1
      exact (h.partly hg i hmem d hd).congr (congrFun plug_defaults _)

theorem Guarding.unplug (h : Guarding s) (hidle : s.sysfs.idle id) {lost : Bool} :
    Guarding ({ s with sysfs := s.sysfs.erase id hidle }.announce (.removed id) lost) := by
  refine .announce h.started ?_ (fun i hi ↦ .inl (h.told i hi)) ?_
  · intro hg i hi hroot
    obtain ⟨d, hd⟩ := Option.isSome_iff_exists.1 hi
    have hbefore := (Sysfs.device_of_erase _ hidle hd).2
    exact h.buses hg i (Option.isSome_iff_exists.2 ⟨d, hbefore⟩) hroot
  · intro hg i hi d hd
    exact (h.partly hg i hi d (Sysfs.device_of_erase _ hidle hd).2).congr rfl

end Kernel

/-! ## The daemon's steps -/

section Act

variable {s : System}

theorem mem_fresh_act {d : Daemon} {i : String} (hi : i ∈ (s.act d).fresh) : i ∈ s.fresh := by
  by_cases hg : s.guarding
  · rw [show (s.act d).fresh = s.fresh from if_pos hg] at hi
    exact hi
  · rw [show (s.act d).fresh = [] from if_neg hg] at hi
    cases hi

/-- Devices are held, and the guard stays as it is. -/
theorem Guarding.act_holding (h : Guarding s) {d : Daemon} (hd : Daemon.Holding s.toDaemon d) :
    Guarding (s.act d) where
  started hg := h.started (hd.guarding ▸ hg)
  buses hg i hi hroot := by
    have hguarding : s.guarding := hd.guarding ▸ hg
    rw [Sysfs.holds, show (s.act d).sysfs.defaults = s.sysfs.defaults from hd.defaults]
    rw [show (s.act d).fresh = s.fresh from if_pos hguarding]
    exact h.buses hguarding i ((hd.present i).symm.trans hi) hroot
  told i hi := h.told i (mem_fresh_act hi)
  partly hg i hi e he := by
    have hguarding : s.guarding := hd.guarding ▸ hg
    rw [show (s.act d).arrived = s.arrived from if_pos hguarding] at hi
    have hpartly := hd.device (Partly s.sysfs) (fun e he ↦ he.usablePart) i
      (h.partly hguarding i hi) e he
    exact hpartly.congr (congrFun hd.defaults _)

theorem Guarding.act_self (h : Guarding s) {d : Daemon} (hguarding : d.guarding = s.guarding)
    (hsysfs : d.sysfs = s.sysfs) : Guarding (s.act d) where
  started hg := h.started (hguarding ▸ hg)
  buses hg i hi hroot := by
    have hg : s.guarding := hguarding ▸ hg
    rw [show (s.act d).sysfs = s.sysfs from hsysfs] at hi ⊢
    rw [show (s.act d).fresh = s.fresh from if_pos hg]
    exact h.buses hg i hi hroot
  told i hi := h.told i (mem_fresh_act hi)
  partly hg i hi e he := by
    have hg : s.guarding := hguarding ▸ hg
    rw [show (s.act d).arrived = s.arrived from if_pos hg] at hi
    rw [show (s.act d).sysfs = s.sysfs from hsysfs] at he ⊢
    exact h.partly hg i hi e he

/-- The guard goes up: every bus there is holds new devices from now on. -/
theorem guarding_act_raise {d : Daemon} (hstarted : s.started) (hs : s.guarding = false)
    (hdefaults : ∀ i, d.sysfs.present i → isRootHub i → d.sysfs.holds i) :
    Guarding (s.act d) where
  started _ := hstarted
  buses _ i hi hroot := .inl (hdefaults i hi hroot)
  told i hi := by
    rw [show (s.act d).fresh = [] from if_neg (by rw [hs]; exact Bool.false_ne_true)] at hi
    cases hi
  partly _ i hi := by
    rw [show (s.act d).arrived = [] from if_neg (by rw [hs]; exact Bool.false_ne_true)] at hi
    cases hi

theorem Guarding.act_lower (h : Guarding s) {d : Daemon} (hd : d.guarding = false) :
    Guarding (s.act d) where
  started hg := absurd (hd.symm.trans hg) (by decide)
  buses hg := absurd (hd.symm.trans hg) (by decide)
  told i hi := h.told i (mem_fresh_act hi)
  partly hg := absurd (hd.symm.trans hg) (by decide)

theorem holds_holdNewDevices {k : Sysfs} {i : String} (hi : k.holdNewDevices.present i)
    (hroot : isRootHub i) : k.holdNewDevices.holds i := by
  rw [Sysfs.present, Sysfs.holdNewDevices_device] at hi
  rw [Sysfs.holds, k.holdNewDevices_defaults hi hroot, decide_eq_true_eq]

theorem Guarding.act_settle (h : Guarding s) (hstarted : s.started) {d : Daemon}
    (hguarding : d.guarding = s.guarding) (hsysfs : d.sysfs = s.sysfs) :
    Guarding (s.act d.settle.2) := by
  rcases d.settle_cases with ⟨hsame, hsysfs', -⟩ | ⟨hdown, hup, hsysfs', -⟩ | ⟨-, -, hdown, -, -⟩
  · exact h.act_self (hsame.trans hguarding) (hsysfs'.trans hsysfs)
  · refine guarding_act_raise hstarted (hguarding.symm.trans hdown) fun i hi hroot ↦ ?_
    rw [hsysfs'] at hi ⊢
    exact holds_holdNewDevices hi hroot
  · exact h.act_lower hdown

theorem Guarding.start (h : Guarding s) (hstarted : s.started = false) {unlocked : Bool} :
    Guarding (s.step (.start unlocked)) := by
  have hs : s.guarding = false := by
    by_contra hg
    rw [Bool.not_eq_false] at hg
    exact absurd (hstarted.symm.trans (h.started hg)) (by decide)
  rw [System.step, if_neg (by rw [hstarted]; exact Bool.false_ne_true)]
  suffices hact : (Daemon.start s.store s.sysfs unlocked).guarding →
      ∀ i, (Daemon.start s.store s.sysfs unlocked).sysfs.present i → isRootHub i →
        (Daemon.start s.store s.sysfs unlocked).sysfs.holds i by
    refine ⟨fun _ ↦ rfl, fun hg i hi hroot ↦ .inl (hact hg i hi hroot), fun i hi ↦ ?_,
      fun _ i hi ↦ ?_⟩
    · rw [System.act, hs] at hi
      cases hi
    · rw [System.act, hs] at hi
      cases hi
  unfold Daemon.start
  dsimp only
  split
  · intro _ i hi hroot
    have hholding := Daemon.Holding.foldl (f := Daemon.hold) Daemon.Holding.hold s.sysfs.waiting
      { enabled := s.store, unlocked, guarding := true, held := [], unclaimed := []
        store := s.store, sysfs := s.sysfs.holdNewDevices }
    rw [hholding.present] at hi
    rw [Sysfs.holds, hholding.defaults]
    exact holds_holdNewDevices hi hroot
  · intro hg
    cases hg

/-- A root hub's announcement: its bus holds new devices from now on. -/
theorem Guarding.welcome (h : Guarding s) {id : String} {pending : List Uevent}
    (known : List String) (hpending : s.pending = .added id :: pending)
    (hg : s.guarding) :
    Guarding { s.act { s.toDaemon with sysfs := s.sysfs.holdNewDevicesOn id } with
      pending, known, fresh := s.fresh.filter (· ≠ id) } where
  started := h.started
  buses _ i hi hroot := by
    rw [Sysfs.holds]
    change decide ((s.sysfs.holdNewDevicesOn id).defaults i = _) = true ∨
      i ∈ s.fresh.filter (· ≠ id)
    change (s.sysfs.holdNewDevicesOn id).present i = true at hi
    rw [Sysfs.holdNewDevicesOn] at hi ⊢
    rw [Sysfs.present, Sysfs.setDefaults_device] at hi
    rw [Sysfs.setDefaults_defaults, List.mem_filter]
    by_cases hieq : i = id
    · rw [if_pos ⟨hieq, hi⟩]
      exact .inl (decide_eq_true rfl)
    · rw [if_neg fun h ↦ hieq h.1]
      exact (h.buses hg i hi hroot).imp_right fun hi ↦ ⟨hi, decide_eq_true hieq⟩
  told i hi := by
    obtain ⟨hmem, hne⟩ := List.mem_filter.1 hi
    have := h.told i hmem
    rw [hpending] at this
    rcases List.mem_cons.1 this with heq | this
    · cases heq
      exact absurd rfl (of_decide_eq_true hne)
    · exact this
  partly _ i hi d hd := by
    rw [show (s.act _).arrived = s.arrived from if_pos hg] at hi
    change (s.sysfs.holdNewDevicesOn id).device i = some d at hd
    rw [Sysfs.holdNewDevicesOn, Sysfs.setDefaults_device] at hd
    obtain ⟨husable, hdefault⟩ := h.partly hg i hi d hd
    refine ⟨husable, fun ha ↦ ?_⟩
    change ((s.sysfs.holdNewDevicesOn id).defaults d.bus).interface_authorized_default = false
    rw [Sysfs.holdNewDevicesOn, Sysfs.setDefaults_defaults]
    split
    · rfl
    · exact hdefault ha

/-- An announcement is off the queue. -/
theorem Guarding.pop_removed (h : Guarding s) {id : String} {pending : List Uevent}
    (hpending : s.pending = .removed id :: pending) (known : List String) :
    Guarding { s with pending, known } where
  started := h.started
  buses := h.buses
  told i hi := by
    have := h.told i hi
    rw [hpending] at this
    rcases List.mem_cons.1 this with heq | this
    · cases heq
    · exact this
  partly := h.partly

/-- One that is not about a root hub, or that comes too late for the guard to care. -/
theorem Guarding.pop_added (h : Guarding s) {id : String} {pending : List Uevent}
    (hpending : s.pending = .added id :: pending) (known : List String)
    (hroot : s.guarding → isRootHub id = false) :
    Guarding { s with pending, known, fresh := s.fresh.filter (· ≠ id) } where
  started := h.started
  buses hg i hi hi' := by
    refine (h.buses hg i hi hi').imp_right fun hfresh ↦ List.mem_filter.2 ⟨hfresh, ?_⟩
    refine decide_eq_true ?_
    rintro rfl
    exact absurd ((hroot hg).symm.trans hi') (by decide)
  told i hi := by
    obtain ⟨hmem, hne⟩ := List.mem_filter.1 hi
    have := h.told i hmem
    rw [hpending] at this
    rcases List.mem_cons.1 this with heq | this
    · cases heq
      exact absurd rfl (of_decide_eq_true hne)
    · exact this
  partly := h.partly

theorem Guarding.handle (h : Guarding s) : Guarding s.handle := by
  unfold System.handle
  rcases hpending : s.pending with - | ⟨id | id, pending⟩
  · exact h
  · by_cases hg : s.guarding
    · have hdaemon : (s.toDaemon.handle (.added id)).2 = s.toDaemon.welcome id := if_pos hg
      by_cases hroot : isRootHub id
      · have hwelcome : s.toDaemon.welcome id =
            { s.toDaemon with sysfs := s.sysfs.holdNewDevicesOn id } := if_pos hroot
        have := h.welcome (id :: s.known) hpending hg
        simp only [Uevent.event, hdaemon, hwelcome]
        rwa [show (s.act _).fresh = s.fresh from if_pos hg]
      · have hwelcome : s.toDaemon.welcome id = s.toDaemon.hold id := if_neg hroot
        simp only [Uevent.event, hdaemon, hwelcome]
        exact (h.act_holding (.hold _ id)).pop_added hpending _ fun _ ↦ by simpa using hroot
    · have hdaemon : (s.toDaemon.handle (.added id)).2 = s.toDaemon := if_neg hg
      simp only [Uevent.event, hdaemon]
      exact (h.act_self rfl rfl).pop_added hpending _ fun hguarding ↦ absurd hguarding hg
  · exact (h.act_self (d := (s.toDaemon.handle (.removed id)).2) rfl rfl).pop_removed hpending _

/-- **The look at all devices**, when some announcement was missed. -/
theorem Guarding.missed (h : Guarding s) :
    Guarding { s.act (s.toDaemon.handle .missed).2 with
      overrun := false, known := s.sysfs.ids } := by
  have hact : Guarding (s.act (s.toDaemon.handle .missed).2) := by
    have hself : Guarding { s with
        held := s.held.filter fun device ↦ s.sysfs.present device.1 } :=
      ⟨h.started, h.buses, h.told, h.partly⟩
    change Guarding (s.act s.toDaemon.catchUp)
    unfold Daemon.catchUp
    dsimp only
    split
    · exact hself.act_holding (Daemon.holding_holdWaiting _ _)
    · exact h.act_self rfl rfl
  exact ⟨hact.started, hact.buses, hact.told, hact.partly⟩

end Act

theorem Guarding.step {s : System} (h : Guarding s) (step : Step) (hok : Announced step s) :
    Guarding (s.step step) := by
  cases step with
  | appear id device policy lost =>
    rw [System.step]
    split
    · rename_i hnew
      exact h.appear hnew.1 hok
    · exact h
  | plug id device wired lost =>
    rw [System.step]
    split
    · rename_i hnew
      exact h.plug hnew.2.1 hnew.2.2.1 hnew.2.2.2 hok
    · exact h
  | unplug id lost =>
    rw [System.step]
    split
    · rename_i hthere
      exact h.unplug hthere.2
    · exact h
  | start unlocked =>
    by_cases hstarted : s.started
    · rw [System.step, if_pos hstarted]
      exact h
    · exact h.start (by simpa using hstarted)
  | handle =>
    rw [System.step]
    split
    · exact h.handle
    · exact h
  | missed =>
    rw [System.step]
    split
    · exact h.missed
    · exact h
  | setUnlocked unlocked =>
    rw [System.step]
    split
    · rename_i hstarted
      exact h.act_settle hstarted (d := { s.toDaemon with unlocked }) rfl rfl
    · exact h
  | setEnabled enabled saves =>
    rw [System.step]
    split
    · rename_i hstarted
      cases saves with
      | true =>
        exact h.act_settle hstarted (d := { s.toDaemon with store := enabled, enabled }) rfl rfl
      | false => exact h.act_self rfl rfl
    · exact h
  | takeReleased =>
    rw [System.step]
    split
    · exact h.act_self rfl rfl
    · exact h

end System

end Usb

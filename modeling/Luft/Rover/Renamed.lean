import Luft.Rover.Rename

/-!
# What a batch of renames comes to

A batch either gives each item that is listed its new name and changes nothing else, or leaves the
folder as it was (`Exact`), except in two cases (`Sound`):

* an item is listed twice, or one is listed that is not there, and every rename goes through all the
  same: another item had that name in between, and was moved on;
* a file system that cannot rename without replacing is asked to rename to a link that leads nowhere:
  looking whether the name is in use follows the link.
-/

set_option autoImplicit false

namespace Rover

open Moves

/-- Each item with the name it is to have. -/
def listed (renamings : List Renaming) : List (Name × Name) :=
  renamings.filterMap fun item ↦ item.path.map fun source ↦ (source, Text.trim item.name)

/-- Each item that is there has its new name, and nothing else has changed. -/
structure Renamed (folder : Folder) (pairs : List (Name × Name)) (folder' : Folder) : Prop where
  named : ∀ p ∈ pairs, folder p.1 ≠ none → folder' p.2 = folder p.1
  other : ∀ n, (∀ p ∈ pairs, folder p.1 ≠ none → p.2 ≠ n) →
    folder' n = if n ∈ pairs.map Prod.fst then none else folder n

/-- All of it was done, or nothing, and nothing was replaced. -/
structure Exact (folder : Folder) (renamings : List Renaming) (o : Outcome Work Error Item Unit) :
    Prop where
  ok : o.result = .ok () → Renamed folder (listed renamings) o.state.folder
  error : ∀ e, o.result = .error e → o.state.folder = folder
  replaced : o.log = []

/-- How renames go, one after the other: all of them go through, one fails, or one replaces an item. -/
inductive Course
  | through
  | stopped
  | replaces
  deriving DecidableEq, Repr

def course (fs : FileSystem) : ℕ → Folder → List (Name × Name) → Course
  | _, _, [] => .through
  | k, folder, (source, target) :: rest =>
    match rename_no_replace fs (fs.forth k) folder source target with
    | .error _ => .stopped
    | .ok folder' => if replaced folder source target = [] then course fs (k + 1) folder' rest else .replaces

variable (fs : FileSystem) (process : ℕ) (lower : Name → Name)

/-- The renames of a batch, in order. -/
def renames (folder : Folder) (pairs : List (Name × Name)) : List (Name × Name) :=
  if staged folder pairs then firstPass (detours process pairs) ++ secondPass (detours process pairs)
  else pairs

/-- No rename replaces an item, and if all of them go through, then each item was listed once and was
there. -/
def Sound (folder : Folder) (renamings : List Renaming) : Prop :=
  ∀ pairs, plan renamings = .ok pairs → taken lower folder pairs = none →
    course fs 0 folder (renames process folder pairs) ≠ .replaces ∧
      (course fs 0 folder (renames process folder pairs) = .through →
        ((listed renamings).map Prod.fst).Nodup ∧ ∀ p ∈ pairs, folder p.1 ≠ none)

variable {fs} {folder folder' : Folder} {source target : Name}

/-! ## One rename -/

theorem rename_eq_ok {fault : Fault} (h : rename fault folder source target = .ok folder') :
    folder source ≠ none ∧ folder' = move folder source target := by
  rw [rename] at h
  split at h
  · cases h
  · split at h
    · cases h
    · rename_i item other hsource htarget
      split_ifs at h
      exact ⟨fun hnone ↦ Option.some_ne_none item (hsource.symm.trans hnone), (Except.ok.inj h).symm⟩
    · rename_i item hsource htarget
      exact ⟨fun hnone ↦ Option.some_ne_none item (hsource.symm.trans hnone), (Except.ok.inj h).symm⟩

/-- A rename that is done moves an item, by a name that can be one. -/
theorem rename_no_replace_eq_ok {fault : Fault}
    (h : rename_no_replace fs fault folder source target = .ok folder') :
    folder source ≠ none ∧ folder' = move folder source target ∧ '\x00' ∉ source ∧ '\x00' ∉ target := by
  rw [rename_no_replace, renameat2_no_replace] at h
  by_cases hname : '\x00' ∈ source ∨ '\x00' ∈ target
  · rw [if_pos hname] at h
    cases h
  · rw [if_neg hname] at h
    rw [not_or] at hname
    rcases hfirst : fault.first with _ | e
    · simp only [hfirst] at h
      split_ifs at h with hno hsource htarget
      · rcases hthere : try_exists fs folder target with e | _ | _
        · simp [hthere] at h
        · simp only [hthere] at h
          exact ⟨(rename_eq_ok h).1, (rename_eq_ok h).2, hname⟩
        · simp [hthere] at h
      · exact ⟨hsource, (Except.ok.inj h).symm, hname⟩
    · simp only [hfirst] at h
      cases e with
      | invalid =>
        rcases hthere : try_exists fs folder target with e | _ | _
        · simp [hthere] at h
        · simp only [hthere] at h
          exact ⟨(rename_eq_ok h).1, (rename_eq_ok h).2, hname⟩
        · simp [hthere] at h
      | alreadyExists => cases h
      | notFound => cases h
      | other => cases h

/-- A rename that replaces nothing can be taken back. -/
theorem takeBack_move (hback : ∀ k, fs.back k = ⟨none, none⟩) (k : ℕ) {steps : List (Name × Name)}
    (hsource : folder source ≠ none) (htarget : target = source ∨ folder target = none)
    (hname : '\x00' ∉ source ∧ '\x00' ∉ target) :
    takeBack fs k source target ⟨move folder source target, steps⟩ = ⟨.ok (), ⟨folder, steps⟩, []⟩ := by
  rw [takeBack, hback]
  by_cases hsame : target = source
  · subst hsame
    rw [move_self]
    split
    · rfl
    · rename_i folder' h
      rw [(rename_no_replace_eq_ok h).2.1, move_self, replaced, if_pos rfl]
  · have hfree : move folder source target source = none := move_source _ (Ne.symm hsame)
    have hthere : move folder source target target ≠ none := by rwa [move_target]
    have hdone : rename_no_replace fs ⟨none, none⟩ (move folder source target) target source = .ok folder := by
      rw [rename_no_replace, renameat2_no_replace, if_neg (by rw [not_or]; exact ⟨hname.2, hname.1⟩)]
      dsimp only
      by_cases hno : fs.noReplace = false
      · rw [if_pos hno]
        dsimp only
        rw [try_exists, hfree]
        dsimp only
        rw [rename, hfree]
        obtain ⟨item, hitem⟩ := Option.ne_none_iff_exists'.1 hthere
        rw [hitem]
        exact congrArg Except.ok (move_back htarget)
      · rw [if_neg hno, if_neg hthere, if_neg (by rw [hfree]; exact fun h ↦ h rfl), move_back htarget]
    rw [hdone]
    dsimp only
    rw [replaced, if_neg hsame, hfree]
    rfl

/-! ## Many renames -/

/-- The names of renames are names that an item can have. -/
def Named (steps : List (Name × Name)) : Prop := ∀ p ∈ steps, '\x00' ∉ p.1 ∧ '\x00' ∉ p.2

/-- What the renames come to, for each way that they can go. -/
def Comes (fs : FileSystem) (work : Work) (steps : List (Name × Name)) : Course → Prop
  | .through => ∃ folder', Goes work.folder steps folder' ∧ Named steps ∧
      applyAll fs steps work = ⟨.ok (), ⟨folder', work.steps ++ steps⟩, []⟩
  | .stopped => ∃ error passed folder', Goes work.folder passed folder' ∧ Named passed ∧
      applyAll fs steps work = ⟨.error error, ⟨folder', work.steps ++ passed⟩, []⟩
  | .replaces => (applyAll fs steps work).log ≠ []

theorem state_bind (work : Work) (f : Work → Renames Unit) : (Op.state >>= f) work = f work work :=
  Op.bind_of_eq_ok rfl

variable (fs) in
theorem applyAll_course (steps : List (Name × Name)) (work : Work) :
    Comes fs work steps (course fs work.steps.length work.folder steps) := by
  induction steps generalizing work with
  | nil => exact ⟨work.folder, .nil _, fun _ hp ↦ absurd hp List.not_mem_nil, by rw [List.append_nil]; rfl⟩
  | cons p rest ih =>
    obtain ⟨source, target⟩ := p
    rw [course]
    rcases hrename : rename_no_replace fs (fs.forth work.steps.length) work.folder source target with e | folder'
    · -- it fails
      have hfails : ∃ error, apply fs source target work = ⟨.error error, work, []⟩ := by
        refine ⟨if e = .alreadyExists then .exists target else .failed source e, ?_⟩
        rw [apply, state_bind, hrename]
        rfl
      obtain ⟨error, herror⟩ := hfails
      refine ⟨error, [], work.folder, .nil _, fun _ hp ↦ absurd hp List.not_mem_nil, ?_⟩
      rw [applyAll, Op.bind_of_eq_error herror, List.append_nil]
    · have happly : apply fs source target work = done folder' source target work := by
        rw [apply, state_bind, hrename]
      dsimp only
      split_ifs with hreplaced
      · -- it moves an item to a free name
        have hdone : apply fs source target work =
            ⟨.ok (), ⟨folder', work.steps ++ [(source, target)]⟩, []⟩ := by
          rw [happly, done, hreplaced]
        have hrest := ih ⟨folder', work.steps ++ [(source, target)]⟩
        obtain ⟨hsource, rfl, hname⟩ := rename_no_replace_eq_ok hrename
        have hfree : target = source ∨ work.folder target = none := by
          rw [replaced] at hreplaced
          split_ifs at hreplaced with hsame
          · exact .inl hsame.symm
          · exact .inr (Option.toList_eq_nil_iff.1 hreplaced)
        rw [List.length_append, List.length_singleton] at hrest
        have hcons {passed : List (Name × Name)} (h : Named passed) : Named ((source, target) :: passed) := by
          intro p hp
          rcases List.mem_cons.1 hp with rfl | hp
          · exact hname
          · exact h p hp
        generalize course fs (work.steps.length + 1) (move work.folder source target) rest = way at hrest ⊢
        cases way with
        | through =>
          obtain ⟨folder'', hgoes, hnamed, hrun⟩ := hrest
          refine ⟨folder'', .cons hsource hfree hgoes, hcons hnamed, ?_⟩
          rw [applyAll, Op.bind_of_eq_ok hdone, hrun, List.append_assoc, List.singleton_append]
        | stopped =>
          obtain ⟨error, passed, folder'', hgoes, hnamed, hrun⟩ := hrest
          refine ⟨error, (source, target) :: passed, folder'', .cons hsource hfree hgoes, hcons hnamed, ?_⟩
          rw [applyAll, Op.bind_of_eq_ok hdone, hrun, List.append_assoc, List.singleton_append]
        | replaces =>
          show (applyAll fs ((source, target) :: rest) work).log ≠ []
          rwa [applyAll, Op.bind_of_eq_ok hdone]
      · -- it replaces one
        show (applyAll fs ((source, target) :: rest) work).log ≠ []
        rw [applyAll, Op.bind_of_ok (by rw [happly]; rfl), happly]
        exact fun h ↦ hreplaced (List.append_eq_nil_iff.1 h).1

/-- **What was done is taken back**, as long as taking it back does not fail by itself. -/
theorem undo_goes (hback : ∀ k, fs.back k = ⟨none, none⟩) {passed : List (Name × Name)}
    (h : Goes folder passed folder') (hnamed : Named passed) (k : ℕ) (steps : List (Name × Name)) :
    undo fs k passed ⟨folder', steps⟩ = ⟨.ok (), ⟨folder, steps⟩, []⟩ := by
  induction h generalizing k with
  | nil => rfl
  | cons ha hb _ ih =>
    rw [undo, Op.bind_of_eq_ok (ih (fun p hp ↦ hnamed p (List.mem_cons_of_mem _ hp)) (k + 1))]
    exact takeBack_move hback k ha hb (hnamed _ List.mem_cons_self)

theorem applyAll_append (first second : List (Name × Name)) (work : Work) :
    applyAll fs (first ++ second) work = (applyAll fs first >>= fun _ ↦ applyAll fs second) work := by
  induction first generalizing work with
  | nil =>
    have hdone : applyAll fs [] work = ⟨.ok (), work, []⟩ := rfl
    rw [Op.bind_of_eq_ok hdone, List.nil_append]
  | cons p first ih =>
    obtain ⟨source, target⟩ := p
    rw [List.cons_append, applyAll, applyAll, Op.bind_assoc]
    rcases happly : (apply fs source target work).result with e | u
    · rw [Op.bind_of_error happly, Op.bind_of_error happly]
    · rw [Op.bind_of_ok happly, Op.bind_of_ok happly, ih]

theorem stage_or_applyAll (pairs : List (Name × Name)) (work : Work) :
    (if staged work.folder pairs then stage fs process pairs else applyAll fs pairs) work =
      applyAll fs (renames process work.folder pairs) work := by
  rw [renames]
  split_ifs
  · rw [stage, applyAll_append]
  · rfl

/-! ## The plan -/

theorem planOne_eq_ok {planned planned' : List Name × List (Name × Name)} {item : Renaming}
    (h : planOne planned item = .ok planned') : ∃ source, item.path = some source ∧
      Text.trim item.name ∉ planned.1 ∧
      planned' = (Text.trim item.name :: planned.1, planned.2 ++
        [(source, Text.trim item.name)].filter fun p ↦ p.1 ≠ p.2) := by
  rw [planOne] at h
  rcases hpath : item.path with _ | source
  · rw [hpath] at h
    split_ifs at h
  · rw [hpath] at h
    split_ifs at h with _ hnew
    refine ⟨source, rfl, hnew, (Except.ok.inj h).symm.trans ?_⟩
    rw [List.filter_singleton]
    split_ifs with hsame
    · rw [decide_eq_true hsame, cond_true]
    · rw [decide_eq_false hsame, cond_false, List.append_nil]

/-- A plan has the items whose names change, and no name is given twice. -/
theorem plan_eq_ok {renamings : List Renaming} {pairs : List (Name × Name)}
    (h : plan renamings = .ok pairs) :
    pairs = (listed renamings).filter (fun p ↦ p.1 ≠ p.2) ∧ ((listed renamings).map Prod.snd).Nodup := by
  suffices hall : ∀ (planned planned' : List Name × List (Name × Name)),
      renamings.foldlM planOne planned = .ok planned' →
        planned'.2 = planned.2 ++ (listed renamings).filter (fun p ↦ p.1 ≠ p.2) ∧
          ((listed renamings).map Prod.snd).Nodup ∧ ∀ n ∈ (listed renamings).map Prod.snd, n ∉ planned.1 by
    rw [plan] at h
    rcases hfold : renamings.foldlM planOne ([], []) with e | planned'
    · rw [hfold] at h
      cases h
    · rw [hfold] at h
      obtain ⟨hpairs, hnodup, -⟩ := hall _ _ hfold
      rw [← Except.ok.inj h]
      exact ⟨hpairs, hnodup⟩
  clear h
  induction renamings with
  | nil =>
    intro planned planned' h
    rw [List.foldlM_nil] at h
    rw [← Except.ok.inj h]
    exact ⟨(List.append_nil _).symm, List.nodup_nil, fun _ hn ↦ absurd hn List.not_mem_nil⟩
  | cons item renamings ih =>
    intro planned planned' h
    rw [List.foldlM_cons] at h
    rcases hone : planOne planned item with e | next
    · rw [hone] at h
      cases h
    · rw [hone] at h
      obtain ⟨source, hpath, hnew, rfl⟩ := planOne_eq_ok hone
      obtain ⟨hpairs, hnodup, hfresh⟩ := ih _ _ h
      have hlisted : listed (item :: renamings) = (source, Text.trim item.name) :: listed renamings := by
        rw [listed, List.filterMap_cons, hpath]
        rfl
      rw [hlisted, List.map_cons, List.nodup_cons]
      refine ⟨?_, ⟨fun hmem ↦ hfresh _ hmem List.mem_cons_self, hnodup⟩, fun n hn ↦ ?_⟩
      · rw [hpairs, List.append_assoc, ← List.filter_append, List.singleton_append]
      · rcases List.mem_cons.1 hn with rfl | hn
        · exact hnew
        · exact fun hmem ↦ hfresh n hn (List.mem_cons_of_mem _ hmem)

theorem temporary_inj {i j : ℕ} (h : temporary process i = temporary process j) : i = j := by
  obtain ⟨front, hfront⟩ : ∃ front, ∀ k, temporary process k = front ++ '-' :: Nat.toDigits 10 k :=
    ⟨_, fun _ ↦ rfl⟩
  rw [hfront, hfront] at h
  have hdigits : Nat.toDigits 10 i = Nat.toDigits 10 j := List.tail_eq_of_cons_eq (List.append_cancel_left h)
  rw [← Nat.ofDigitChars_ten_toDigits (n := i), hdigits, Nat.ofDigitChars_ten_toDigits]

theorem detours_maps (pairs : List (Name × Name)) :
    (detours process pairs).map Detour.source = pairs.map Prod.fst ∧
      (detours process pairs).map Detour.target = pairs.map Prod.snd ∧
      ((detours process pairs).map Detour.stop).Nodup ∧ direct (detours process pairs) = pairs := by
  have hpairs : pairs.zipIdx.map Prod.fst = pairs := List.zipIdx_map_fst 0 pairs
  refine ⟨?_, ?_, ?_, ?_⟩
  · rw [detours, List.map_map]
    conv_rhs => rw [← hpairs]
    rw [List.map_map]
    rfl
  · rw [detours, List.map_map]
    conv_rhs => rw [← hpairs]
    rw [List.map_map]
    rfl
  · rw [detours, List.map_map]
    have hstops : pairs.zipIdx.map (Detour.stop ∘ fun entry ↦ ⟨entry.1.1, temporary process entry.2, entry.1.2⟩) =
        (pairs.zipIdx.map Prod.snd).map (temporary process) := by
      rw [List.map_map]
      rfl
    rw [hstops, List.zipIdx_map_snd]
    exact List.Nodup.map (fun i j hij ↦ temporary_inj process hij) List.nodup_range'
  · rw [direct, detours, List.map_map]
    exact hpairs

/-! ## The result -/

section

variable {pairs moves : List (Name × Name)}

/-- A rename of the list that changes no name shares its name with none that does. -/
theorem target_notMem (hmoves : moves = pairs.filter fun p ↦ p.1 ≠ p.2) (htargets : (pairs.map Prod.snd).Nodup)
    {p : Name × Name} (hp : p ∈ pairs) (hsame : p.1 = p.2) : p.2 ∉ moves.map Prod.snd := by
  intro hmem
  obtain ⟨q, hq, hqp⟩ := List.mem_map.1 hmem
  rw [hmoves, List.mem_filter, decide_eq_true_iff] at hq
  rw [List.inj_on_of_nodup_map htargets hq.1 hp hqp] at hq
  exact hq.2 hsame

/-- Renames that all happen at once are what was asked for. -/
theorem renamed_of_atOnce (hmoves : moves = pairs.filter fun p ↦ p.1 ≠ p.2)
    (hsources : (pairs.map Prod.fst).Nodup) (htargets : (pairs.map Prod.snd).Nodup)
    (hthere : ∀ p ∈ moves, folder p.1 ≠ none) (h : AtOnce folder moves folder') :
    Renamed folder pairs folder' := by
  have hmem {p : Name × Name} : p ∈ moves ↔ p ∈ pairs ∧ p.1 ≠ p.2 := by
    rw [hmoves, List.mem_filter, decide_eq_true_iff]
  refine ⟨fun p hp hpthere ↦ ?_, fun n hn ↦ ?_⟩
  · by_cases hsame : p.1 = p.2
    · have hsource : p.2 ∉ moves.map Prod.fst := by
        intro hfrom
        obtain ⟨q, hq, hqp⟩ := List.mem_map.1 hfrom
        rw [hmem] at hq
        rw [List.inj_on_of_nodup_map hsources hq.1 hp (hqp.trans hsame.symm)] at hq
        exact hq.2 hsame
      rw [h.other _ (target_notMem hmoves htargets hp hsame), if_neg hsource, hsame]
    · exact h.target p (hmem.2 ⟨hp, hsame⟩)
  · have htarget : n ∉ moves.map Prod.snd := by
      intro hto
      obtain ⟨q, hq, hqn⟩ := List.mem_map.1 hto
      exact hn q (hmem.1 hq).1 (hthere q hq) hqn
    rw [h.other n htarget]
    by_cases hfrom : n ∈ moves.map Prod.fst
    · obtain ⟨q, hq, hqn⟩ := List.mem_map.1 hfrom
      rw [if_pos hfrom, if_pos (List.mem_map.2 ⟨q, (hmem.1 hq).1, hqn⟩)]
    · rw [if_neg hfrom]
      split_ifs with hlisted
      · -- it is listed under the name that it has, so it is not there
        obtain ⟨q, hq, rfl⟩ := List.mem_map.1 hlisted
        have hsame : q.1 = q.2 := by
          by_contra hne
          exact hfrom (List.mem_map_of_mem (hmem.2 ⟨hq, hne⟩))
        by_contra hnone
        exact hn q hq hnone hsame.symm
      · rfl

/-- Renames that all happen at once are what was asked for only if no item is listed twice. -/
theorem nodup_of_renamed (hmoves : moves = pairs.filter fun p ↦ p.1 ≠ p.2)
    (htargets : (pairs.map Prod.snd).Nodup) (hready : Ready folder (moves.map Prod.fst))
    (h : AtOnce folder moves folder') (hrenamed : Renamed folder pairs folder') :
    (pairs.map Prod.fst).Nodup := by
  have hmem {p : Name × Name} : p ∈ moves ↔ p ∈ pairs ∧ p.1 ≠ p.2 := by
    rw [hmoves, List.mem_filter, decide_eq_true_iff]
  -- an item that keeps its name and gets another is gone from where it should have stayed
  have hkept {p q : Name × Name} (hp : p ∈ pairs) (hsame : p.1 = p.2) (hq : q ∈ moves) : q.1 ≠ p.1 := by
    intro hqp
    have hfrom : p.2 ∈ moves.map Prod.fst := List.mem_map.2 ⟨q, hq, hqp.trans hsame⟩
    have hpthere : folder p.1 ≠ none := hsame ▸ hready.2 _ hfrom
    refine hpthere ?_
    rw [← hrenamed.named p hp hpthere, h.other _ (target_notMem hmoves htargets hp hsame), if_pos hfrom]
  refine List.Nodup.map_on (fun p hp q hq hpq ↦ ?_) htargets.of_map
  by_cases hp' : p.1 = p.2
  · by_cases hq' : q.1 = q.2
    · exact Prod.ext hpq (hp'.symm.trans (hpq.trans hq'))
    · exact absurd hpq.symm (hkept hp hp' (hmem.2 ⟨hq, hq'⟩))
  · by_cases hq' : q.1 = q.2
    · exact absurd hpq (hkept hq hq' (hmem.2 ⟨hp, hp'⟩))
    · exact List.inj_on_of_nodup_map hready.1 (hmem.2 ⟨hp, hp'⟩) (hmem.2 ⟨hq, hq'⟩) hpq

end

/-! ### The batch -/

section

variable {process : ℕ} {lower : Name → Name} {pairs : List (Name × Name)} {renamings : List Renaming}

theorem renames_atOnce (h : Goes folder (renames process folder pairs) folder')
    (hready : Ready folder (pairs.map Prod.fst)) (htargets : (pairs.map Prod.snd).Nodup) :
    AtOnce folder pairs folder' := by
  obtain ⟨hsource, htarget, hstops, hdirect⟩ := detours_maps process pairs
  rw [renames] at h
  split_ifs at h
  · rw [← hdirect]
    exact h.two_passes (hsource ▸ hready) hstops (htarget ▸ htargets)
  · exact h.at_once hready.1 htargets fun p hp ↦ hready.2 _ (List.mem_map_of_mem hp)

theorem renames_moved_on (h : Goes folder (renames process folder pairs) folder')
    (hready : ¬ Ready folder (pairs.map Prod.fst)) (htargets : (pairs.map Prod.snd).Nodup) :
    MovedOn folder folder' pairs := by
  obtain ⟨hsource, htarget, hstops, hdirect⟩ := detours_maps process pairs
  rw [renames] at h
  split_ifs at h
  · rw [← hdirect]
    exact h.two_passes_moved_on hstops (htarget ▸ htargets) (hsource ▸ hready)
  · exact h.moved_on htargets hready

/-- **Renames that all go through** are what was asked for when each item was listed once and was there,
and otherwise not. -/
theorem renamed_iff (hplan : plan renamings = .ok pairs) (h : Goes folder (renames process folder pairs) folder') :
    Renamed folder (listed renamings) folder' ↔
      ((listed renamings).map Prod.fst).Nodup ∧ ∀ p ∈ pairs, folder p.1 ≠ none := by
  obtain ⟨hmoves, htargets⟩ := plan_eq_ok hplan
  have hsub : List.Sublist pairs (listed renamings) := by
    rw [hmoves]
    exact List.filter_sublist
  have hpairs : (pairs.map Prod.snd).Nodup := htargets.sublist (hsub.map _)
  refine ⟨fun hrenamed ↦ ?_, fun ⟨hsources, hthere⟩ ↦ ?_⟩
  · by_cases hready : Ready folder (pairs.map Prod.fst)
    · refine ⟨nodup_of_renamed hmoves htargets hready (renames_atOnce h hready hpairs) hrenamed, fun p hp ↦ ?_⟩
      exact hready.2 _ (List.mem_map_of_mem hp)
    · obtain ⟨p, hp, hthere, hgone⟩ := renames_moved_on h hready hpairs
      exact absurd ((hrenamed.named p (hsub.subset hp) hthere).symm.trans hgone) hthere
  · refine renamed_of_atOnce hmoves hsources htargets hthere (renames_atOnce h ⟨?_, fun n hn ↦ ?_⟩ hpairs)
    · exact hsources.sublist (hsub.map _)
    · obtain ⟨p, hp, rfl⟩ := List.mem_map.1 hn
      exact hthere p hp

theorem exact_of_error {error : Error} {steps : List (Name × Name)} :
    Exact folder renamings ⟨.error error, ⟨folder, steps⟩, []⟩ :=
  ⟨fun h ↦ (by cases h), fun _ _ ↦ rfl, rfl⟩

theorem exact_iff_renamed {steps : List (Name × Name)} :
    Exact folder renamings ⟨.ok (), ⟨folder', steps⟩, []⟩ ↔ Renamed folder (listed renamings) folder' :=
  ⟨fun h ↦ h.ok rfl, fun h ↦ ⟨fun _ ↦ h, fun _ he ↦ (by cases he), rfl⟩⟩

theorem done_iff (hplan : plan renamings = .ok pairs) (htaken : taken lower folder pairs = none) :
    Sound fs process lower folder renamings ↔ course fs 0 folder (renames process folder pairs) ≠ .replaces ∧
      (course fs 0 folder (renames process folder pairs) = .through →
        ((listed renamings).map Prod.fst).Nodup ∧ ∀ p ∈ pairs, folder p.1 ≠ none) := by
  refine ⟨fun h ↦ h pairs hplan htaken, fun h pairs' hplan' _ ↦ ?_⟩
  rwa [← Except.ok.inj (hplan.symm.trans hplan')]

/-- What is done once the names are found to be free. -/
theorem batch_rename_run (hplan : plan renamings = .ok pairs) (htaken : taken lower folder pairs = none) :
    batch_rename fs process lower renamings ⟨folder, []⟩ =
      Op.rescue (applyAll fs (renames process folder pairs)) (fun error ↦ do
        let work ← Op.state
        undo fs 0 work.steps
        Op.fail error) ⟨folder, []⟩ := by
  have hlift : (Op.lift (plan renamings) : Renames _) ⟨folder, []⟩ = ⟨.ok pairs, ⟨folder, []⟩, []⟩ := by
    rw [hplan, Op.lift_apply]
  rw [batch_rename, Op.bind_of_eq_ok hlift]
  split_ifs with hnil
  · rw [hnil, Op.rescue_of_ok (a := ())]
    · rfl
    · rfl
  · rw [state_bind, htaken]
    dsimp only
    rw [Op.rescue, Op.rescue, stage_or_applyAll process pairs ⟨folder, []⟩]

/-- Renames that fail for no reason of their own. -/
def quiet (noReplace : Bool) : FileSystem where
  noReplace
  follow := fun _ _ ↦ .ok false
  forth := fun _ ↦ ⟨none, none⟩
  back := fun _ ↦ ⟨none, none⟩

def letter (n : UInt8) : Item := ⟨.file, [n]⟩

/-- Two items that change names. -/
def swapped : List Renaming := [⟨some ['a'], ['b']⟩, ⟨some ['b'], ['a']⟩]

end

end Rover

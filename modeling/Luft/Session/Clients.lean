import Luft.Lib.Runs
import Mathlib.Data.List.Basic
import Mathlib.Data.List.Nodup

/-!
# Apps that are told the session ends

Apps register with the session manager and are asked twice before the session ends: whether it may
(`query`), then that it does (`endSession`).  For each question every client gets a channel for its
answer, and `Clients::end` goes on once all the channels are resolved, by an answer or because they
were dropped, or once the time for the question has run out.

`Clients` is the registry with every call of `end` that is underway, and `Clients.step` one event,
in any order.  `TimeGiven` says that no call has returned before a client had answered, and
`timeGiven_run` in which runs that is so.
-/

set_option autoImplicit false

namespace Session

inductive Ending
  | query
  | endSession
  deriving DecidableEq, Repr

/-- A client; `answered` is the channel its answer goes to. -/
structure Registered where
  path : Nat
  owner : Nat
  answered : Option Nat
  deriving DecidableEq, Repr

/-- How far a call of `end` is. -/
inductive Stage
  | starting (ending : Ending)
  /-- The clients in `asked` are still to be asked, `answers` is what is waited for. -/
  | asking (ending : Ending) (asked : List (Nat × Nat)) (answers : List Nat)
  /-- The wait is over. -/
  | clearing (ending : Ending) (expired : Bool)
  | returned
  deriving DecidableEq, Repr

/-- A call of `end` that returned, with the clients that were told and had not answered. -/
structure Return where
  task : Nat
  expired : Bool
  unanswered : List Nat
  deriving DecidableEq, Repr

/-- The registry and the calls of `end`.  `arriving` are clients whose object is not served yet.
`owed` are the clients a call has told that the session ends and that have not answered since;
nothing keeps that list but this model, and `returns` likewise. -/
structure Clients where
  next : Nat
  clients : List Registered
  arriving : List (Nat × Nat)
  channels : Nat
  tasks : List Stage
  owed : List (Nat × Nat)
  returns : List Return

inductive Event
  /-- `register`, up to the point where the object is served. -/
  | reserve (owner : Nat)
  /-- The rest of `register`. -/
  | insert (path : Nat)
  | unregister (path : Nat)
  /-- Anyone on the bus calls `EndSessionResponse` of a client's object. -/
  | endSessionResponse (path caller : Nat)
  /-- Something calls `end`. -/
  | finish
  | broadcast (task : Nat)
  /-- The signal to one client; it may fail. -/
  | ask (task path : Nat) (delivered : Bool)
  | answered (task : Nat)
  | expire (task : Nat)
  | clear (task : Nat)

namespace Clients

variable (s : Clients)

def reserve (owner : Nat) : Clients :=
  { s with next := s.next + 1, arriving := s.arriving ++ [(s.next + 1, owner)] }

def insert (path : Nat) : Clients :=
  match s.arriving.find? (·.1 = path) with
  | some (_, owner) =>
    { s with
      arriving := s.arriving.filter (·.1 ≠ path)
      clients := s.clients ++ [⟨path, owner, none⟩] }
  | none => s

def unregister (path : Nat) : Clients :=
  { s with clients := s.clients.filter (·.path ≠ path) }

/-- What happens when a caller leaves the bus. -/
def removeOwner (owner : Nat) : List Event :=
  ((s.clients.filter (·.owner = owner)).map (·.path)).map .unregister

/-- The call is the client's own answer. -/
def isOwn (path caller : Nat) : Bool :=
  s.clients.any fun c ↦ c.path = path ∧ c.owner = caller

def endSessionResponse (path caller : Nat) : Clients :=
  { s with
    clients := s.clients.map fun c ↦ if c.path = path then { c with answered := none } else c
    owed := if s.isOwn path caller then s.owed.filter (·.2 ≠ path) else s.owed }

/-- The clients, each with a channel of its own. -/
def asks : List (Registered × Nat) :=
  s.clients.zipIdx.map fun (c, i) ↦ (c, s.channels + i)

def broadcast (task : Nat) : Clients :=
  match s.tasks[task]? with
  | some (.starting ending) =>
    { s with
      clients := s.asks.map fun (c, channel) ↦ { c with answered := some channel }
      channels := s.channels + s.clients.length
      tasks := s.tasks.set task
        (.asking ending (s.asks.map fun (c, channel) ↦ (c.path, channel)) []) }
  | _ => s

def ask (task path : Nat) (delivered : Bool) : Clients :=
  match s.tasks[task]? with
  | some (.asking ending asked answers) =>
    match asked.find? (·.1 = path) with
    | some (_, channel) =>
      { s with
        tasks := s.tasks.set task
          (.asking ending (asked.filter (·.1 ≠ path)) (answers ++ [channel]))
        owed := if delivered ∧ ending = .endSession then (task, path) :: s.owed else s.owed }
    | none => s
  | _ => s

/-- The answer was neither given nor dropped. -/
def isOpen (channel : Nat) : Bool := s.clients.any (·.answered = some channel)

/-- All the answers are in. -/
def answered (task : Nat) : Clients :=
  match s.tasks[task]? with
  | some (.asking ending [] answers) =>
    if answers.any s.isOpen then s else { s with tasks := s.tasks.set task (.clearing ending false) }
  | _ => s

/-- The time for the answers has run out. -/
def expire (task : Nat) : Clients :=
  match s.tasks[task]? with
  | some (.asking ending [] _) => { s with tasks := s.tasks.set task (.clearing ending true) }
  | _ => s

/-- The clients that the call told and that have not answered since. -/
def unanswered (task : Nat) : List Nat :=
  (s.clients.map (·.path)).filter fun path ↦ (task, path) ∈ s.owed

def clear (task : Nat) : Clients :=
  match s.tasks[task]? with
  | some (.clearing ending expired) =>
    { s with
      clients := s.clients.map ({ · with answered := none })
      tasks := s.tasks.set task
        (match ending with
        | .query => .starting .endSession
        | .endSession => .returned)
      returns :=
        match ending with
        | .query => s.returns
        | .endSession => ⟨task, expired, s.unanswered task⟩ :: s.returns }
  | _ => s

def step (e : Event) (s : Clients) : Clients :=
  match e with
  | .reserve owner => s.reserve owner
  | .insert path => s.insert path
  | .unregister path => s.unregister path
  | .endSessionResponse path caller => s.endSessionResponse path caller
  | .finish => { s with tasks := s.tasks ++ [.starting .query] }
  | .broadcast task => s.broadcast task
  | .ask task path delivered => s.ask task path delivered
  | .answered task => s.answered task
  | .expire task => s.expire task
  | .clear task => s.clear task

/-- No call of `end` returned in time while a client it had told, and that is still registered, had
not answered. -/
def TimeGiven : Prop := ∀ r ∈ s.returns, r.expired ∨ r.unanswered = []

end Clients

/-! ## Which events give the clients their time -/

namespace Stage

/-- The clients that are still to be told that the session ends. -/
def asked : Stage → List (Nat × Nat)
  | .asking .endSession asked _ => asked
  | _ => []

/-- The answers to `EndSession` that are waited for. -/
def answers : Stage → List Nat
  | .asking .endSession _ answers => answers
  | _ => []

def tells : Stage → Bool
  | .asking .endSession _ _ => true
  | _ => false

/-- Nobody was told yet. -/
def before : Stage → Bool
  | .starting _ => true
  | .asking .query _ _ => true
  | .clearing .query _ => true
  | _ => false

end Stage

namespace Clients

/-- No other call of `end` has told the clients that the session ends and waits for them. -/
def Alone (s : Clients) (task : Nat) : Prop :=
  ∀ other < s.tasks.length, other ≠ task → (s.tasks[other]?.any Stage.tells) = false

/-- A client is answered for by itself, and only once it was told that the session ends, and no two
calls of `end` wait for the clients at once. -/
def Careful (e : Event) (s : Clients) : Prop :=
  match e with
  | .endSessionResponse path caller => ∀ c ∈ s.clients, c.path = path → ∀ stage ∈ s.tasks,
      (∀ p ∈ stage.asked, c.answered ≠ some p.2) ∧
        ((∃ channel ∈ stage.answers, c.answered = some channel) → caller = c.owner)
  | .broadcast task => s.Alone task
  | .clear task => s.Alone task
  | _ => True

instance (s : Clients) (task : Nat) : Decidable (s.Alone task) :=
  inferInstanceAs (Decidable (∀ other < s.tasks.length, _))

instance (e : Event) (s : Clients) : Decidable (Careful e s) :=
  match e with
  | .endSessionResponse _ _ => inferInstanceAs (Decidable (∀ c ∈ s.clients, _))
  | .broadcast task => inferInstanceAs (Decidable (s.Alone task))
  | .clear task => inferInstanceAs (Decidable (s.Alone task))
  | .reserve _ => .isTrue trivial
  | .insert _ => .isTrue trivial
  | .unregister _ => .isTrue trivial
  | .finish => .isTrue trivial
  | .ask _ _ _ => .isTrue trivial
  | .answered _ => .isTrue trivial
  | .expire _ => .isTrue trivial

/-! ## What careful events keep -/

/-- What is known of a call of `end`: who is still to be told has the channel it was given, who was
told and has not answered has one that is waited for, and nobody is owed anything once all the
answers are in. -/
structure Fine (s : Clients) (task : Nat) (stage : Stage) : Prop where
  asked : ∀ a ∈ stage.asked, ∀ c ∈ s.clients, c.path = a.1 → c.answered = some a.2
  waited : stage.tells → ∀ o ∈ s.owed, o.1 = task → ∀ c ∈ s.clients, c.path = o.2 →
    ∃ channel ∈ stage.answers, c.answered = some channel
  ended : stage = .clearing .endSession false → ∀ o ∈ s.owed, o.1 = task →
    ∀ c ∈ s.clients, c.path ≠ o.2
  before : stage.before → ∀ o ∈ s.owed, o.1 ≠ task

/-- The path is one of a client, or of one that was. -/
def Known (s : Clients) (path : Nat) : Prop :=
  (∃ c ∈ s.clients, c.path = path) ∨ (∃ stage ∈ s.tasks, ∃ a ∈ stage.asked, a.1 = path) ∨
    ∃ o ∈ s.owed, o.2 = path

structure Sound (s : Clients) : Prop where
  key : (s.clients.map (·.path)).Nodup
  arriving : ∀ a ∈ s.arriving, a.1 ≤ s.next
  known : ∀ path, s.Known path → path ≤ s.next ∧ ∀ a ∈ s.arriving, a.1 ≠ path
  owed : ∀ o ∈ s.owed, o.1 < s.tasks.length
  fine : ∀ task stage, s.tasks[task]? = some stage → s.Fine task stage

variable {s t : Clients} {task : Nat} {stage : Stage}

theorem tells_of_asked {a : Nat × Nat} (h : a ∈ stage.asked) : stage.tells := by
  rcases stage with _ | ⟨_ | _, _, _⟩ | _ | _
  · cases h
  · cases h
  · rfl
  · cases h
  · cases h

/-- A call is as fine as before if each client is as before to it, or is none of its business. -/
theorem Fine.imp (h : s.Fine task stage) (howed : ∀ o ∈ t.owed, o.1 = task → o ∈ s.owed)
    (hclients : ∀ c ∈ t.clients,
      (∃ c' ∈ s.clients, c'.path = c.path ∧ (stage.tells → c'.answered = c.answered)) ∨
        (∀ a ∈ stage.asked, a.1 ≠ c.path) ∧ ∀ o ∈ t.owed, o.1 = task → o.2 ≠ c.path) :
    t.Fine task stage := by
  refine ⟨fun a ha c hc hpath ↦ ?_, fun htells o ho htask c hc hpath ↦ ?_,
    fun hover o ho htask c hc hpath ↦ ?_, fun hbefore o ho htask ↦ ?_⟩
  · obtain ⟨c', hc', hsame, hanswered⟩ | ⟨hnot, -⟩ := hclients c hc
    · rw [← hanswered (tells_of_asked ha)]
      exact h.asked a ha c' hc' (hsame.trans hpath)
    · exact absurd hpath.symm (hnot a ha)
  · obtain ⟨c', hc', hsame, hanswered⟩ | ⟨-, hnot⟩ := hclients c hc
    · rw [← hanswered htells]
      exact h.waited htells o (howed o ho htask) htask c' hc' (hsame.trans hpath)
    · exact absurd hpath.symm (hnot o ho htask)
  · obtain ⟨c', hc', hsame, -⟩ | ⟨-, hnot⟩ := hclients c hc
    · exact h.ended hover o (howed o ho htask) htask c' hc' (hsame.trans hpath)
    · exact hnot o ho htask hpath.symm
  · exact h.before hbefore o (howed o ho htask) htask

theorem Fine.of_subset (h : s.Fine task stage) (howed : t.owed ⊆ s.owed)
    (hclients : t.clients ⊆ s.clients) : t.Fine task stage :=
  h.imp (fun _ ho _ ↦ howed ho) fun c hc ↦ .inl ⟨c, hclients hc, rfl, fun _ ↦ rfl⟩

namespace Sound

theorem reserve (h : s.Sound) (owner : Nat) : (s.reserve owner).Sound where
  key := h.key
  arriving := by
    intro a ha
    rcases List.mem_append.1 ha with ha | ha
    · exact (h.arriving a ha).trans (Nat.le_succ _)
    · rw [List.mem_singleton.1 ha]
      exact le_rfl
  known := by
    intro path hpath
    obtain ⟨hle, hnot⟩ := h.known path hpath
    refine ⟨hle.trans (Nat.le_succ _), fun a ha ↦ ?_⟩
    rcases List.mem_append.1 ha with ha | ha
    · exact hnot a ha
    · rw [List.mem_singleton.1 ha]
      exact (Nat.lt_succ_of_le hle).ne'
  owed := h.owed
  fine := fun task stage hstage ↦ (h.fine task stage hstage).of_subset (List.Subset.refl _)
    (List.Subset.refl _)

theorem insert (h : s.Sound) (path : Nat) : (s.insert path).Sound := by
  rcases hfind : s.arriving.find? (·.1 = path) with - | ⟨path', owner⟩
  · rw [Clients.insert, hfind]
    exact h
  have hmem := List.mem_of_find?_eq_some hfind
  obtain rfl : path' = path := by simpa using List.find?_some hfind
  rw [Clients.insert, hfind]
  have hnew : ¬s.Known path' := fun hknown ↦ (h.known path' hknown).2 _ hmem rfl
  refine ⟨?_, fun a ha ↦ h.arriving a (List.mem_filter.1 ha).1, fun p hp ↦ ?_, h.owed,
    fun task stage hstage ↦ (h.fine task stage hstage).imp (fun _ ho _ ↦ ho) fun c hc ↦ ?_⟩
  · rw [List.map_append, List.nodup_append]
    refine ⟨h.key, List.nodup_singleton _, fun p hp q hq heq ↦ hnew (.inl ?_)⟩
    obtain ⟨c, hc, rfl⟩ := List.mem_map.1 hp
    exact ⟨c, hc, heq.trans (List.mem_singleton.1 hq)⟩
  · by_cases hsame : p = path'
    · rw [hsame]
      refine ⟨h.arriving _ hmem, fun a ha ↦ ?_⟩
      simpa using (List.mem_filter.1 ha).2
    · have hp' : s.Known p := by
        rcases hp with ⟨c, hc, hpath⟩ | hp
        · rcases List.mem_append.1 hc with hc | hc
          · exact .inl ⟨c, hc, hpath⟩
          · rw [List.mem_singleton.1 hc] at hpath
            exact absurd hpath.symm hsame
        · exact .inr hp
      obtain ⟨hle, hnot⟩ := h.known p hp'
      exact ⟨hle, fun a ha ↦ hnot a (List.mem_filter.1 ha).1⟩
  · rcases List.mem_append.1 hc with hc | hc
    · exact .inl ⟨c, hc, rfl, fun _ ↦ rfl⟩
    · rw [List.mem_singleton.1 hc]
      refine .inr ⟨fun a ha heq ↦ hnew (.inr (.inl ?_)), fun o ho _ heq ↦ hnew (.inr (.inr ?_))⟩
      · exact ⟨stage, List.mem_of_getElem? hstage, a, ha, heq⟩
      · exact ⟨o, ho, heq⟩

theorem unregister (h : s.Sound) (path : Nat) : (s.unregister path).Sound where
  key := (List.filter_sublist.map _).nodup h.key
  arriving := h.arriving
  known := by
    intro p hp
    refine h.known p (hp.imp_left ?_)
    rintro ⟨c, hc, hpath⟩
    exact ⟨c, (List.mem_filter.1 hc).1, hpath⟩
  owed := h.owed
  fine := fun task stage hstage ↦ (h.fine task stage hstage).of_subset (List.Subset.refl _)
    (List.filter_subset_self _)

/-- An answer that is careful takes nothing that is still owed. -/
theorem endSessionResponse (h : s.Sound) {path caller : Nat}
    (hc : Careful (.endSessionResponse path caller) s) :
    (s.endSessionResponse path caller).Sound := by
  have howed : (s.endSessionResponse path caller).owed ⊆ s.owed := by
    rw [Clients.endSessionResponse]
    by_cases hown : s.isOwn path caller
    · rw [if_pos hown]
      exact List.filter_subset_self _
    · rw [if_neg hown]
      exact List.Subset.refl _
  have hback : ∀ c ∈ (s.endSessionResponse path caller).clients, ∃ c' ∈ s.clients,
      c'.path = c.path ∧ (c.path ≠ path → c' = c) := by
    intro c hmem
    obtain ⟨c', hc', rfl⟩ := List.mem_map.1 hmem
    refine ⟨c', hc', ?_⟩
    by_cases hpath : c'.path = path
    · rw [if_pos hpath]
      exact ⟨rfl, fun hne ↦ absurd hpath hne⟩
    · rw [if_neg hpath]
      exact ⟨rfl, fun _ ↦ rfl⟩
  refine ⟨?_, h.arriving, fun p hp ↦ h.known p ?_, fun o ho ↦ h.owed o (howed ho),
    fun task stage hstage ↦ (h.fine task stage hstage).imp (fun _ ho _ ↦ howed ho) fun c hmem ↦ ?_⟩
  · have hpaths : (s.endSessionResponse path caller).clients.map (·.path) =
        s.clients.map (·.path) := by
      change List.map _ (List.map _ s.clients) = _
      rw [List.map_map]
      refine List.map_congr_left fun c _ ↦ ?_
      rw [Function.comp_apply]
      split <;> rfl
    rw [hpaths]
    exact h.key
  · rcases hp with ⟨c, hmem, hpath⟩ | hp | ⟨o, ho, hpath⟩
    · obtain ⟨c', hc', hsame, -⟩ := hback c hmem
      exact .inl ⟨c', hc', hsame.trans hpath⟩
    · exact .inr (.inl hp)
    · exact .inr (.inr ⟨o, howed ho, hpath⟩)
  · obtain ⟨c', hc', hsame, heq⟩ := hback c hmem
    by_cases hpath : c.path = path
    · by_cases htells : stage.tells
      · obtain ⟨hasked, hown⟩ := hc c' hc' (hsame.trans hpath) stage (List.mem_of_getElem? hstage)
        have hfine := h.fine task stage hstage
        refine .inr ⟨fun a ha hpa ↦ ?_, fun o ho htask hpo ↦ ?_⟩
        · exact hasked a ha (hfine.asked a ha c' hc' (hsame.trans hpa.symm))
        · have hcaller := hown (hfine.waited htells o (howed ho) htask c' hc' (hsame.trans hpo.symm))
          have hisOwn : s.isOwn path caller :=
            List.any_eq_true.2 ⟨c', hc', decide_eq_true ⟨hsame.trans hpath, hcaller.symm⟩⟩
          change o ∈ (if s.isOwn path caller then _ else _) at ho
          rw [if_pos hisOwn] at ho
          have := (List.mem_filter.1 ho).2
          rw [hpo, hpath] at this
          simp at this
      · exact .inl ⟨c', hc', hsame, fun ht ↦ absurd ht htells⟩
    · exact .inl ⟨c', hc', hsame, fun _ ↦ by rw [heq hpath]⟩

/-- One call of `end` goes on; the others are as fine as they were. -/
theorem set (h : s.Sound) {new : Stage} (hstage : s.tasks[task]? = some stage)
    (htasks : t.tasks = s.tasks.set task new) (hnext : t.next = s.next)
    (harriving : t.arriving = s.arriving)
    (hpaths : t.clients.map (·.path) = s.clients.map (·.path))
    (howed : ∀ o ∈ t.owed, o ∈ s.owed ∨ o.1 = task ∧ ∃ a ∈ stage.asked, a.1 = o.2)
    (hasked : ∀ a ∈ new.asked, a.1 ∈ s.clients.map (·.path) ∨ ∃ b ∈ stage.asked, b.1 = a.1)
    (hother : ∀ other stage, other ≠ task → s.tasks[other]? = some stage → t.Fine other stage)
    (hnew : t.Fine task new) : t.Sound where
  key := hpaths ▸ h.key
  arriving := harriving ▸ hnext ▸ h.arriving
  known := by
    intro path hpath
    rw [hnext, harriving]
    refine h.known path ?_
    have hclient : ∀ p ∈ s.clients.map (·.path), s.Known p := by
      intro p hp
      exact .inl (List.mem_map.1 hp)
    have hold : ∀ p, (∃ a ∈ stage.asked, a.1 = p) → s.Known p := by
      intro p hp
      exact .inr (.inl ⟨stage, List.mem_of_getElem? hstage, hp⟩)
    rcases hpath with ⟨c, hc, rfl⟩ | ⟨stage', hstage', a, ha, rfl⟩ | ⟨o, ho, rfl⟩
    · exact hclient _ (hpaths ▸ List.mem_map_of_mem hc)
    · rw [htasks] at hstage'
      rcases List.mem_or_eq_of_mem_set hstage' with hmem | rfl
      · exact .inr (.inl ⟨stage', hmem, a, ha, rfl⟩)
      · exact (hasked a ha).elim (hclient _) (hold _)
    · rcases howed o ho with ho | ⟨-, ho⟩
      · exact .inr (.inr ⟨o, ho, rfl⟩)
      · exact hold _ ho
  owed := by
    intro o ho
    rw [htasks, List.length_set]
    rcases howed o ho with ho | ⟨rfl, -⟩
    · exact h.owed o ho
    · exact (List.getElem?_eq_some_iff.1 hstage).1
  fine := by
    intro other stage' hstage'
    rw [htasks, List.getElem?_set] at hstage'
    by_cases hsame : task = other
    · rw [if_pos hsame, if_pos (List.getElem?_eq_some_iff.1 hstage).1] at hstage'
      rw [← hsame, ← Option.some.inj hstage']
      exact hnew
    · rw [if_neg hsame] at hstage'
      exact hother other stage' (Ne.symm hsame) hstage'

theorem finish (h : s.Sound) : (step .finish s).Sound where
  key := h.key
  arriving := h.arriving
  known := by
    intro path hpath
    refine h.known path ?_
    rcases hpath with hc | ⟨stage, hstage, a, ha, hp⟩ | ho
    · exact .inl hc
    · rcases List.mem_append.1 hstage with hstage | hstage
      · exact .inr (.inl ⟨stage, hstage, a, ha, hp⟩)
      · rw [List.mem_singleton.1 hstage] at ha
        cases ha
    · exact .inr (.inr ho)
  owed := by
    intro o ho
    refine (h.owed o ho).trans_le ?_
    change _ ≤ (s.tasks ++ [_]).length
    rw [List.length_append]
    exact Nat.le_add_right _ _
  fine := by
    intro task stage hstage
    change (s.tasks ++ [_])[task]? = some stage at hstage
    by_cases hlt : task < s.tasks.length
    · rw [List.getElem?_append_left hlt] at hstage
      exact (h.fine task stage hstage).of_subset (List.Subset.refl _) (List.Subset.refl _)
    · obtain ⟨hle, hget⟩ := List.getElem?_eq_some_iff.1 hstage
      rw [List.getElem_append_right (Nat.le_of_not_lt hlt)] at hget
      obtain rfl : Stage.starting .query = stage := by simpa using hget
      refine ⟨nofun, nofun, nofun, fun _ o ho htask ↦ hlt ?_⟩
      exact htask ▸ h.owed o ho

/-- The other calls are as fine as they were when every client gets or loses its channel, as long as
none of them waits for the clients. -/
theorem others (h : s.Sound) (halone : s.Alone task) (howed : t.owed = s.owed)
    (hpaths : t.clients.map (·.path) = s.clients.map (·.path)) (other : Nat) (stage : Stage)
    (hne : other ≠ task) (hstage : s.tasks[other]? = some stage) : t.Fine other stage := by
  have hquiet := halone other (List.getElem?_eq_some_iff.1 hstage).1 hne
  rw [hstage, Option.any_some] at hquiet
  refine (h.fine other stage hstage).imp (fun o ho _ ↦ howed ▸ ho) fun c hc ↦ .inl ?_
  obtain ⟨c', hc', hsame⟩ := List.mem_map.1 (hpaths ▸ List.mem_map_of_mem hc)
  refine ⟨c', hc', hsame, fun htells ↦ ?_⟩
  rw [hquiet] at htells
  cases htells

theorem broadcast (h : s.Sound) (hc : s.Alone task) : (s.broadcast task).Sound := by
  rcases hstage : s.tasks[task]? with - | ⟨ending | _ | _ | _⟩
  all_goals rw [Clients.broadcast, hstage]
  · exact h
  · have hasks : s.asks.map (fun a ↦ a.1.path) = s.clients.map (·.path) := by
      rw [asks, List.map_map, ← List.zipIdx_map_fst 0 s.clients, List.map_map, List.zipIdx_map_fst]
      rfl
    have hpaths : (s.asks.map fun a ↦ { a.1 with answered := some a.2 }).map (·.path) =
        s.clients.map (·.path) := by
      rw [List.map_map]
      exact hasks
    have hnone := (h.fine task _ hstage).before rfl
    refine h.set hstage rfl rfl rfl hpaths (fun o ho ↦ .inl ho) (fun a ha ↦ .inl ?_)
      (h.others hc rfl hpaths) ⟨fun a ha c hmem hpath ↦ ?_, fun _ o ho htask ↦ ?_, nofun,
        fun _ ↦ hnone⟩
    · rcases ending with - | -
      · cases ha
      · obtain ⟨p, hp, rfl⟩ := List.mem_map.1 ha
        exact hasks ▸ List.mem_map_of_mem hp
    · rcases ending with - | -
      · cases ha
      · obtain ⟨p, hp, rfl⟩ := List.mem_map.1 ha
        obtain ⟨q, hq, rfl⟩ := List.mem_map.1 hmem
        obtain rfl := List.inj_on_of_nodup_map (hasks.symm ▸ h.key) hq hp hpath
        rfl
    · exact absurd htask (hnone o ho)
  · exact h
  · exact h
  · exact h

theorem ask (h : s.Sound) (path : Nat) (delivered : Bool) : (s.ask task path delivered).Sound := by
  rcases hstage : s.tasks[task]? with - | ⟨_ | ⟨ending, asked, answers⟩ | _ | _⟩
  · rw [Clients.ask, hstage]
    exact h
  · rw [Clients.ask, hstage]
    exact h
  · rcases hfind : asked.find? (·.1 = path) with - | ⟨path', channel⟩
    · rw [Clients.ask, hstage]
      simp only [hfind]
      exact h
    have hmem := List.mem_of_find?_eq_some hfind
    obtain rfl : path' = path := by simpa using List.find?_some hfind
    have hfine := h.fine task _ hstage
    rw [Clients.ask, hstage]
    simp only [hfind]
    have howed : ∀ o ∈ (if delivered ∧ ending = .endSession then (task, path') :: s.owed else s.owed),
        o ∈ s.owed ∨ ending = .endSession ∧ o = (task, path') := by
      intro o ho
      by_cases hd : delivered ∧ ending = .endSession
      · rw [if_pos hd] at ho
        exact (List.mem_cons.1 ho).symm.imp_right fun heq ↦ ⟨hd.2, heq⟩
      · rw [if_neg hd] at ho
        exact .inl ho
    refine h.set hstage rfl rfl rfl rfl (fun o ho ↦ (howed o ho).imp_right ?_) (fun a ha ↦ .inr ?_)
      (fun other stage hne hother ↦ ?_) ⟨fun a ha c hc hpath ↦ ?_, fun htells o ho htask c hc hpath ↦ ?_,
        nofun, fun hbefore o ho ↦ ?_⟩
    · rintro ⟨rfl, rfl⟩
      exact ⟨rfl, _, hmem, rfl⟩
    · rcases ending with - | -
      · cases ha
      · exact ⟨a, (List.mem_filter.1 ha).1, rfl⟩
    · refine (h.fine other stage hother).imp (fun o ho htask ↦ (howed o ho).resolve_right ?_)
        fun c hc ↦ .inl ⟨c, hc, rfl, fun _ ↦ rfl⟩
      rintro ⟨-, rfl⟩
      exact hne htask.symm
    · rcases ending with - | -
      · cases ha
      · exact hfine.asked a (List.mem_filter.1 ha).1 c hc hpath
    · rcases ending with - | -
      · cases htells
      · rcases howed o ho with ho | ⟨-, rfl⟩
        · obtain ⟨ch, hch, hsome⟩ := hfine.waited rfl o ho htask c hc hpath
          exact ⟨ch, List.mem_append_left _ hch, hsome⟩
        · exact ⟨channel, List.mem_append_right _ List.mem_cons_self, hfine.asked _ hmem c hc hpath⟩
    · rcases ending with - | -
      · refine hfine.before rfl o ((howed o ho).resolve_right ?_)
        rintro ⟨hending, -⟩
        cases hending
      · cases hbefore
  · rw [Clients.ask, hstage]
    exact h
  · rw [Clients.ask, hstage]
    exact h

/-- The wait of a call ends, with all the answers in or because the time has run out. -/
theorem endWait (h : s.Sound) {ending : Ending} {answers : List Nat} {expired : Bool}
    (hstage : s.tasks[task]? = some (.asking ending [] answers))
    (hover : ending = .endSession → expired = false → ∀ channel ∈ answers, s.isOpen channel = false) :
    ({ s with tasks := s.tasks.set task (.clearing ending expired) } : Clients).Sound := by
  have hfine := h.fine task _ hstage
  refine h.set hstage rfl rfl rfl rfl (fun o ho ↦ .inl ho) (fun a ha ↦ ?_)
    (fun other stage _ hother ↦ (h.fine other stage hother).of_subset (List.Subset.refl _)
      (List.Subset.refl _)) ⟨fun a ha ↦ ?_, nofun, fun heq o ho htask c hc hpath ↦ ?_, fun hbefore ↦ ?_⟩
  · cases ha
  · cases ha
  · obtain ⟨rfl, rfl⟩ := Stage.clearing.inj heq
    obtain ⟨channel, hchannel, hsome⟩ := hfine.waited rfl o ho htask c hc hpath
    have hopen : s.isOpen channel := List.any_eq_true.2 ⟨c, hc, decide_eq_true hsome⟩
    rw [hover rfl rfl channel hchannel] at hopen
    cases hopen
  · rcases ending with - | -
    · exact hfine.before rfl
    · cases hbefore

theorem answered (h : s.Sound) : (s.answered task).Sound := by
  rcases hstage : s.tasks[task]? with - | ⟨_ | ⟨ending, _ | _, answers⟩ | _ | _⟩
  all_goals rw [Clients.answered, hstage]
  any_goals exact h
  by_cases hopen : answers.any s.isOpen
  · simp only [if_pos hopen]
    exact h
  · simp only [if_neg hopen]
    refine h.endWait hstage fun _ _ channel hchannel ↦ Bool.eq_false_iff.2 fun hc ↦ hopen ?_
    exact List.any_eq_true.2 ⟨channel, hchannel, hc⟩

theorem expire (h : s.Sound) : (s.expire task).Sound := by
  rcases hstage : s.tasks[task]? with - | ⟨_ | ⟨ending, _ | _, answers⟩ | _ | _⟩
  all_goals rw [Clients.expire, hstage]
  any_goals exact h
  exact h.endWait hstage (nofun : _ → true = false → _)

theorem clear (h : s.Sound) (hc : s.Alone task) : (s.clear task).Sound := by
  rcases hstage : s.tasks[task]? with - | ⟨_ | _ | ⟨ending, expired⟩ | _⟩
  all_goals rw [Clients.clear, hstage]
  any_goals exact h
  have hpaths : (s.clients.map ({ · with answered := none })).map (·.path) =
      s.clients.map (·.path) := by
    rw [List.map_map]
    rfl
  refine h.set hstage rfl rfl rfl hpaths (fun o ho ↦ .inl ho) (fun a ha ↦ ?_)
    (h.others hc rfl hpaths) ?_
  · rcases ending with - | -
    · cases ha
    · cases ha
  · rcases ending with - | -
    · exact ⟨nofun, nofun, nofun, fun _ ↦ (h.fine task _ hstage).before rfl⟩
    · exact ⟨nofun, nofun, nofun, nofun⟩

theorem step (h : s.Sound) {e : Event} (hc : Careful e s) : (step e s).Sound := by
  rcases e with owner | path | path | ⟨path, caller⟩ | - | task | ⟨task, path, delivered⟩ | task |
    task | task
  · exact h.reserve owner
  · exact h.insert path
  · exact h.unregister path
  · exact h.endSessionResponse hc
  · exact h.finish
  · exact h.broadcast hc
  · exact h.ask path delivered
  · exact h.answered
  · exact h.expire
  · exact h.clear hc

/-- When all the answers are in, nobody who is still registered was told and has not answered. -/
theorem unanswered_eq_nil (h : s.Sound)
    (hstage : s.tasks[task]? = some (.clearing .endSession false)) : s.unanswered task = [] := by
  rw [Clients.unanswered, List.filter_eq_nil_iff]
  intro path hpath howed
  obtain ⟨c, hc, rfl⟩ := List.mem_map.1 hpath
  exact (h.fine task _ hstage).ended rfl _ (of_decide_eq_true howed) rfl c hc rfl

end Sound

/-! ## Whole runs -/

theorem returns_of_ne_clear {e : Event} (he : ∀ task, e ≠ .clear task) :
    (step e s).returns = s.returns := by
  rcases e with owner | path | path | ⟨path, caller⟩ | - | task | ⟨task, path, delivered⟩ | task |
    task | task
  · rfl
  · change (s.insert path).returns = _
    rw [insert]
    split <;> rfl
  · rfl
  · rfl
  · rfl
  · change (s.broadcast task).returns = _
    rw [broadcast]
    split <;> rfl
  · change (s.ask task path delivered).returns = _
    rw [ask]
    split
    · split <;> rfl
    · rfl
  · change (s.answered task).returns = _
    rw [answered]
    split
    · split <;> rfl
    · rfl
  · change (s.expire task).returns = _
    rw [expire]
    split <;> rfl
  · exact absurd rfl (he task)

theorem TimeGiven.step (h : s.TimeGiven) (hs : s.Sound) (e : Event) : (step e s).TimeGiven := by
  by_cases he : ∀ task, e ≠ .clear task
  · rw [TimeGiven, returns_of_ne_clear he]
    exact h
  obtain ⟨task, rfl⟩ := not_forall_not.1 he
  change (s.clear task).TimeGiven
  rcases hstage : s.tasks[task]? with - | ⟨_ | _ | ⟨ending, expired⟩ | _⟩
  all_goals rw [clear, hstage]
  any_goals exact h
  rcases ending with - | -
  · exact h
  · refine List.forall_mem_cons.2 ⟨?_, h⟩
    rcases expired with - | -
    · exact .inr (hs.unanswered_eq_nil hstage)
    · exact .inl rfl

/-- No client is registered and no call of `end` is underway. -/
def quiet : Clients := ⟨0, [], [], 0, [], [], []⟩

theorem sound_quiet : quiet.Sound := by
  refine ⟨List.nodup_nil, nofun, ?_, nofun, nofun⟩
  rintro path (⟨c, hc, -⟩ | ⟨stage, hstage, -⟩ | ⟨o, ho, -⟩)
  · cases hc
  · cases hstage
  · cases ho

/-- **Clients get their time** in every run of careful events. -/
theorem timeGiven_run {run : List Event} (h : Runs.Along step Careful run quiet) :
    Runs.Throughout step TimeGiven run quiet := by
  have hstart : quiet.Sound ∧ quiet.TimeGiven := ⟨sound_quiet, nofun⟩
  refine (h.throughout (P := fun s ↦ s.Sound ∧ s.TimeGiven) (fun e s hs hc ↦ ?_) hstart).mono
    fun _ hs ↦ hs.2
  exact ⟨hs.1.step hc, hs.2.step hs.1 e⟩

/-- Two clients register, answer both questions themselves once they were asked, and one of them
leaves in between. -/
def politeRun : List Event :=
  [.reserve 10, .insert 1, .reserve 20, .insert 2, .reserve 30, .insert 3, .finish, .broadcast 0,
    .ask 0 1 true, .endSessionResponse 1 10, .ask 0 2 true, .ask 0 3 false,
    .endSessionResponse 2 20, .unregister 3, .answered 0, .clear 0, .broadcast 0, .ask 0 2 true,
    .ask 0 1 true, .endSessionResponse 1 10, .endSessionResponse 2 20, .answered 0, .clear 0]

theorem timeGiven_run_polite : Runs.Along step Careful politeRun quiet ∧
    Runs.Throughout step TimeGiven politeRun quiet := by
  have h : Runs.Along step Careful politeRun quiet := by decide
  exact ⟨h, timeGiven_run h⟩

/-- A client's answer to the first question comes late, when the second one's channel is there and
the client was not told yet; another client is answered for by a stranger. -/
def hastyRun : List Event :=
  [.reserve 10, .insert 1, .reserve 20, .insert 2, .finish, .broadcast 0, .ask 0 1 true,
    .ask 0 2 true, .expire 0, .clear 0, .broadcast 0, .endSessionResponse 1 10, .ask 0 1 true,
    .ask 0 2 true, .endSessionResponse 2 99, .answered 0, .clear 0]

/-- The call returns in time, and neither client has answered since it was told. -/
theorem time_not_given : ¬Runs.Throughout step TimeGiven hastyRun quiet ∧
    (Runs.after step hastyRun quiet).returns = [⟨0, false, [1, 2]⟩] := by
  refine ⟨fun h ↦ ?_, by decide⟩
  exact absurd (h.finish ⟨0, false, [1, 2]⟩ (by decide)) (by decide)

end Clients

end Session

import Mathlib.Tactic.TypeStar

/-!
# Operations that change a state, keep a log and may fail

`Op σ ε κ α` is a program over a state `σ`: it ends with a result of type `α` or an error of type
`ε`, leaves a state behind either way, and logs what it did on the way.  This is how code reads that
calls the outside world one step at a time and returns early when a call fails: the log is what the
outside world saw, and the state is what stays when the code gives up.

* `bind_ok` takes a successful run apart: the first part succeeded, and so did the rest.
* `Keeps` is for what every run maintains, failed ones included (`Keeps.bind`), and `Meets` for what
  a run that succeeds and one that fails end with (`Meets.bind`).
* `attempt` is one call of the outside world, which may fail with or without its effect (`Fate`);
  `ignore` and `rescue` are for programs that clean up when it does.
-/

set_option autoImplicit false

/-- How an operation ended. -/
structure Outcome (σ ε κ α : Type*) where
  result : Except ε α
  state : σ
  log : List κ

/-- What becomes of a call of the outside world. -/
inductive Fate
  | done
  /-- It fails and nothing is changed. -/
  | failed
  /-- It fails with its work half done. -/
  | halfway
  /-- It fails, or is not heard of again, with its work done. -/
  | late
  deriving DecidableEq, Repr

/-- A program over a state, with a log, that may fail. -/
def Op (σ ε κ α : Type*) := σ → Outcome σ ε κ α

namespace Op

universe u

variable {σ ε κ : Type*} {α β : Type u}

def ret (a : α) : Op σ ε κ α := fun s ↦ ⟨.ok a, s, []⟩

def andThen (x : Op σ ε κ α) (f : α → Op σ ε κ β) : Op σ ε κ β := fun s ↦
  match (x s).result with
  | .error e => ⟨.error e, (x s).state, (x s).log⟩
  | .ok a => ⟨(f a (x s).state).result, (f a (x s).state).state,
      (x s).log ++ (f a (x s).state).log⟩

instance : Monad (Op σ ε κ) where
  pure := ret
  bind := andThen

/-- The state as it is. -/
def state : Op σ ε κ σ := fun s ↦ ⟨.ok s, s, []⟩

/-- Change the state. -/
def change (f : σ → σ) : Op σ ε κ Unit := fun s ↦ ⟨.ok (), f s, []⟩

/-- Write down what was done. -/
def emit (k : κ) : Op σ ε κ Unit := fun s ↦ ⟨.ok (), s, [k]⟩

/-- A computation that may fail. -/
def lift (x : Except ε α) : Op σ ε κ α := fun s ↦ ⟨x, s, []⟩

/-- Give up. -/
def fail (e : ε) : Op σ ε κ α := fun s ↦ ⟨.error e, s, []⟩

/-- Give up unless the condition holds. -/
def require (p : Bool) (e : ε) : Op σ ε κ Unit := fun s ↦ ⟨if p then .ok () else .error e, s, []⟩

/-- Leave it out unless the condition holds. -/
def onlyIf (p : Bool) (x : Op σ ε κ Unit) : Op σ ε κ Unit := fun s ↦ if p then x s else ⟨.ok (), s, []⟩

/-- A call that changes the state, or fails the way its fate says. -/
def attempt (fate : Fate) (e : ε) (half full : σ → σ) : Op σ ε κ Unit := fun s ↦
  match fate with
  | .done => ⟨.ok (), full s, []⟩
  | .failed => ⟨.error e, s, []⟩
  | .halfway => ⟨.error e, half s, []⟩
  | .late => ⟨.error e, full s, []⟩

/-- Go on whatever comes of it. -/
def ignore (x : Op σ ε κ α) : Op σ ε κ Unit := fun s ↦ ⟨.ok (), (x s).state, (x s).log⟩

/-- What is done when it fails. -/
def rescue (x : Op σ ε κ α) (handle : ε → Op σ ε κ α) : Op σ ε κ α := fun s ↦
  match (x s).result with
  | .ok a => ⟨.ok a, (x s).state, (x s).log⟩
  | .error e => ⟨(handle e (x s).state).result, (handle e (x s).state).state,
      (x s).log ++ (handle e (x s).state).log⟩

variable {x : Op σ ε κ α} {f : α → Op σ ε κ β} {s : σ}

/-! ## What one step does -/

@[simp] theorem pure_apply (a : α) : (pure a : Op σ ε κ α) s = ⟨.ok a, s, []⟩ := rfl

@[simp] theorem state_apply : (state : Op σ ε κ σ) s = ⟨.ok s, s, []⟩ := rfl

@[simp] theorem change_apply (g : σ → σ) : (change g : Op σ ε κ Unit) s = ⟨.ok (), g s, []⟩ := rfl

@[simp] theorem emit_apply (k : κ) : (emit k : Op σ ε κ Unit) s = ⟨.ok (), s, [k]⟩ := rfl

@[simp] theorem lift_apply (y : Except ε α) : (lift y : Op σ ε κ α) s = ⟨y, s, []⟩ := rfl

@[simp] theorem fail_apply (e : ε) : (fail e : Op σ ε κ α) s = ⟨.error e, s, []⟩ := rfl

theorem bind_of_ok {a : α} (h : (x s).result = .ok a) : (x >>= f) s =
    ⟨(f a (x s).state).result, (f a (x s).state).state,
      (x s).log ++ (f a (x s).state).log⟩ := by
  show andThen x f s = _
  rw [andThen, h]

theorem bind_of_error {e : ε} (h : (x s).result = .error e) :
    (x >>= f) s = ⟨.error e, (x s).state, (x s).log⟩ := by
  show andThen x f s = _
  rw [andThen, h]

section

variable {γ : Type}

@[simp] theorem require_bind (p : Bool) (e : ε) (g : Unit → Op σ ε κ γ) :
    (require p e >>= g) s = if p then g () s else ⟨.error e, s, []⟩ := by
  cases p with
  | false => rfl
  | true => rfl

end

theorem onlyIf_pos {p : Bool} {y : Op σ ε κ Unit} (h : p) : onlyIf p y s = y s := by
  rw [onlyIf, if_pos h]

theorem onlyIf_neg {p : Bool} {y : Op σ ε κ Unit} (h : ¬p) : onlyIf p y s = ⟨.ok (), s, []⟩ := by
  rw [onlyIf, if_neg h]

/-- It goes well, or fails with all, half or nothing of its work done. -/
theorem attempt_cases (fate : Fate) (e : ε) (half full : σ → σ) (s : σ) :
    fate = .done ∧ (attempt fate e half full : Op σ ε κ Unit) s = ⟨.ok (), full s, []⟩ ∨
      fate ≠ .done ∧ ∃ t, (attempt fate e half full : Op σ ε κ Unit) s = ⟨.error e, t, []⟩ ∧
        (fate = .failed ∧ t = s ∨ fate = .halfway ∧ t = half s ∨ fate = .late ∧ t = full s) := by
  cases fate with
  | done => exact .inl ⟨rfl, rfl⟩
  | failed => exact .inr ⟨nofun, _, rfl, .inl ⟨rfl, rfl⟩⟩
  | halfway => exact .inr ⟨nofun, _, rfl, .inr (.inl ⟨rfl, rfl⟩)⟩
  | late => exact .inr ⟨nofun, _, rfl, .inr (.inr ⟨rfl, rfl⟩)⟩

@[simp] theorem ignore_apply : ignore x s = ⟨.ok (), (x s).state, (x s).log⟩ := rfl

theorem rescue_of_ok {a : α} {handle : ε → Op σ ε κ α} (h : (x s).result = .ok a) :
    rescue x handle s = ⟨.ok a, (x s).state, (x s).log⟩ := by
  rw [rescue, h]

theorem rescue_of_error {e : ε} {handle : ε → Op σ ε κ α} (h : (x s).result = .error e) :
    rescue x handle s = ⟨(handle e (x s).state).result, (handle e (x s).state).state,
      (x s).log ++ (handle e (x s).state).log⟩ := by
  rw [rescue, h]

/-- A first part that goes well and logs nothing. -/
theorem bind_of_eq_ok {a : α} {t : σ} (h : x s = ⟨.ok a, t, []⟩) : (x >>= f) s = f a t := by
  rw [bind_of_ok (a := a) (by rw [h]), h]
  rfl

theorem bind_of_eq_error {e : ε} {t : σ} {log : List κ} (h : x s = ⟨.error e, t, log⟩) :
    (x >>= f) s = ⟨.error e, t, log⟩ := by
  rw [bind_of_error (e := e) (by rw [h]), h]

theorem bind_assoc {γ : Type u} (g : β → Op σ ε κ γ) : ((x >>= f) >>= g) s = (x >>= fun a ↦ f a >>= g) s := by
  rcases hx : (x s).result with e | a
  · have hfirst : ((x >>= f) s).result = .error e := by rw [bind_of_error hx]
    rw [bind_of_error hfirst, bind_of_error hx, bind_of_error hx]
  · rw [bind_of_ok hx]
    rcases hf : (f a (x s).state).result with e | b
    · rw [bind_of_error (by rw [bind_of_ok hx]; exact hf), bind_of_ok hx, bind_of_error hf]
    · rw [bind_of_ok (by rw [bind_of_ok hx]; exact hf), bind_of_ok hx, bind_of_ok hf]
      simp only [List.append_assoc]

/-! ## Taking runs apart -/

/-- **A run that succeeds** did so in its first part, and the rest succeeded from there. -/
theorem bind_ok {b : β} (h : ((x >>= f) s).result = .ok b) :
    ∃ a, (x s).result = .ok a ∧ (f a (x s).state).result = .ok b ∧
      ((x >>= f) s).state = (f a (x s).state).state ∧
      ((x >>= f) s).log = (x s).log ++ (f a (x s).state).log := by
  rcases hx : (x s).result with e | a
  · rw [bind_of_error hx] at h
    cases h
  · rw [bind_of_ok hx] at h
    exact ⟨a, rfl, h, by rw [bind_of_ok hx], by rw [bind_of_ok hx]⟩

/-- From a state with `A` a run that succeeds ends with `B`, and one that fails with
`F`. -/
def Meets (A : σ → Prop) (x : Op σ ε κ α) (B : α → σ → Prop) (F : σ → Prop) : Prop :=
  ∀ s, A s → (∀ a, (x s).result = .ok a → B a (x s).state) ∧
    (∀ e, (x s).result = .error e → F (x s).state)

namespace Meets

variable {A F : σ → Prop} {B : α → σ → Prop}

/-- **One part after the other.** -/
theorem bind {B' : β → σ → Prop} (hx : Meets A x B F)
    (hf : ∀ a, Meets (B a) (f a) B' F) : Meets A (x >>= f) B' F := by
  intro s hs
  obtain ⟨hok, herror⟩ := hx s hs
  rcases hresult : (x s).result with e | a
  · rw [bind_of_error hresult]
    exact ⟨nofun, fun _ _ ↦ herror e hresult⟩
  · rw [bind_of_ok hresult]
    exact hf a _ (hok a hresult)

theorem pure {a : α} (h : ∀ s, A s → B a s) : Meets A (pure a : Op σ ε κ α) B F :=
  fun s hs ↦ ⟨fun _ hb ↦ Except.ok.inj hb ▸ h s hs, nofun⟩

theorem state {σ : Type u} {A F : σ → Prop} :
    Meets A (state : Op σ ε κ σ) (fun t s ↦ t = s ∧ A s) F :=
  fun _ hs ↦ ⟨fun _ ht ↦ ⟨(Except.ok.inj ht).symm, hs⟩, nofun⟩

theorem fail {e : ε} (h : ∀ s, A s → F s) : Meets A (fail e : Op σ ε κ α) B F :=
  fun s hs ↦ ⟨nofun, fun _ _ ↦ h s hs⟩

theorem require {p : Bool} {e : ε} (h : ∀ s, A s → F s) :
    Meets A (require p e : Op σ ε κ Unit) (fun _ s ↦ p ∧ A s) F := by
  intro s hs
  cases p with
  | false => exact ⟨nofun, fun _ _ ↦ h s hs⟩
  | true => exact ⟨fun _ _ ↦ ⟨rfl, hs⟩, nofun⟩

theorem onlyIf {p : Bool} {y : Op σ ε κ Unit} {B : Unit → σ → Prop}
    (hy : p → Meets A y B F) (hnot : p = false → ∀ s, A s → B () s) :
    Meets A (onlyIf p y) B F := by
  cases p with
  | false => exact fun s hs ↦ ⟨fun _ _ ↦ hnot rfl s hs, nofun⟩
  | true => exact fun s hs ↦ hy rfl s hs

/-- A call that may fail. -/
theorem attempt {fate : Fate} {e : ε} {half full : σ → σ} {B : Unit → σ → Prop}
    (hdone : ∀ s, A s → B () (full s)) (hfailed : ∀ s, A s → F s)
    (hhalf : ∀ s, A s → F (half s)) (hlate : ∀ s, A s → F (full s)) :
    Meets A (attempt fate e half full : Op σ ε κ Unit) B F := by
  intro s hs
  cases fate with
  | done => exact ⟨fun _ _ ↦ hdone s hs, nofun⟩
  | failed => exact ⟨nofun, fun _ _ ↦ hfailed s hs⟩
  | halfway => exact ⟨nofun, fun _ _ ↦ hhalf s hs⟩
  | late => exact ⟨nofun, fun _ _ ↦ hlate s hs⟩

/-- What a computation gives, where it does not fail. -/
theorem lift {y : Except ε α} (h : ∀ s, A s → F s) :
    Meets A (lift y : Op σ ε κ α) (fun a s ↦ y = .ok a ∧ A s) F :=
  fun s hs ↦ ⟨fun _ hy ↦ ⟨hy, hs⟩, fun _ _ ↦ h s hs⟩

theorem change {g : σ → σ} {B : Unit → σ → Prop} (h : ∀ s, A s → B () (g s)) :
    Meets A (change g : Op σ ε κ Unit) B F :=
  fun s hs ↦ ⟨fun _ _ ↦ h s hs, nofun⟩

theorem emit {k : κ} {B : Unit → σ → Prop} (h : ∀ s, A s → B () s) :
    Meets A (emit k : Op σ ε κ Unit) B F :=
  fun s hs ↦ ⟨fun _ _ ↦ h s hs, nofun⟩

/-- What is known does not change. -/
theorem assuming {p : Prop} (h : p → Meets A x B F) : Meets (fun s ↦ p ∧ A s) x B F :=
  fun s hs ↦ h hs.1 s hs.2

theorem mono {A' F' : σ → Prop} {B' : α → σ → Prop} (h : Meets A x B F)
    (hpre : ∀ s, A' s → A s) (hpost : ∀ a s, B a s → B' a s)
    (hfailed : ∀ s, F s → F' s) : Meets A' x B' F' := by
  intro s hs
  obtain ⟨hok, herror⟩ := h s (hpre s hs)
  exact ⟨fun a ha ↦ hpost a _ (hok a ha), fun e he ↦ hfailed _ (herror e he)⟩

/-- Two things that are known of it. -/
theorem and {F' : σ → Prop} {B' : α → σ → Prop} (h : Meets A x B F) (h' : Meets A x B' F') :
    Meets A x (fun a s ↦ B a s ∧ B' a s) fun s ↦ F s ∧ F' s := by
  intro s hs
  obtain ⟨hok, herror⟩ := h s hs
  obtain ⟨hok', herror'⟩ := h' s hs
  exact ⟨fun a ha ↦ ⟨hok a ha, hok' a ha⟩, fun e he ↦ ⟨herror e he, herror' e he⟩⟩

/-- However it ends. -/
theorem state_of {I : σ → Prop} (h : Meets A x (fun _ ↦ I) I) {s : σ} (hs : A s) :
    I (x s).state := by
  obtain ⟨hok, herror⟩ := h s hs
  rcases hresult : (x s).result with e | a
  · exact herror e hresult
  · exact hok a hresult

end Meets

/-- Every run keeps `I`, failed ones included, and logs only what has `P`. -/
def Keeps (I : σ → Prop) (P : κ → Prop) (x : Op σ ε κ α) : Prop :=
  ∀ s, I s → I (x s).state ∧ ∀ k ∈ (x s).log, P k

namespace Keeps

variable {I : σ → Prop} {P : κ → Prop}

theorem bind (hx : Keeps I P x) (hf : ∀ a, Keeps I P (f a)) : Keeps I P (x >>= f) := by
  intro s hs
  obtain ⟨hstate, hlog⟩ := hx s hs
  rcases hres : (x s).result with e | a
  · rw [bind_of_error hres]
    exact ⟨hstate, hlog⟩
  · rw [bind_of_ok hres]
    refine ⟨(hf a _ hstate).1, fun k hk ↦ ?_⟩
    rcases List.mem_append.1 hk with hk | hk
    · exact hlog k hk
    · exact (hf a _ hstate).2 k hk

theorem of_still (h : ∀ s, (x s).state = s ∧ (x s).log = []) : Keeps I P x := by
  intro s hs
  rw [(h s).1, (h s).2]
  exact ⟨hs, fun k hk ↦ by cases hk⟩

theorem pure (a : α) : Keeps I P (pure a : Op σ ε κ α) := of_still fun _ ↦ ⟨rfl, rfl⟩

theorem state : Keeps I P (state : Op σ ε κ σ) := of_still fun _ ↦ ⟨rfl, rfl⟩

theorem lift (y : Except ε α) : Keeps I P (lift y : Op σ ε κ α) := of_still fun _ ↦ ⟨rfl, rfl⟩

theorem fail (e : ε) : Keeps I P (fail e : Op σ ε κ α) := of_still fun _ ↦ ⟨rfl, rfl⟩

theorem change {g : σ → σ} (h : ∀ s, I s → I (g s)) : Keeps I P (change g : Op σ ε κ Unit) :=
  fun s hs ↦ ⟨h s hs, fun _ hk ↦ by cases hk⟩

theorem attempt {fate : Fate} {e : ε} {half full : σ → σ} (hhalf : ∀ s, I s → I (half s))
    (hfull : ∀ s, I s → I (full s)) : Keeps I P (attempt fate e half full : Op σ ε κ Unit) := by
  intro s hs
  cases fate with
  | done => exact ⟨hfull s hs, nofun⟩
  | failed => exact ⟨hs, nofun⟩
  | halfway => exact ⟨hhalf s hs, nofun⟩
  | late => exact ⟨hfull s hs, nofun⟩

theorem ignore (h : Keeps I P x) : Keeps I P (ignore x) := h

theorem meets (h : Keeps I P x) : Meets I x (fun _ ↦ I) I :=
  fun s hs ↦ ⟨fun _ _ ↦ (h s hs).1, fun _ _ ↦ (h s hs).1⟩

theorem onlyIf {p : Bool} {y : Op σ ε κ Unit} (h : p → Keeps I P y) :
    Keeps I P (onlyIf p y) := by
  cases p with
  | false => exact of_still fun _ ↦ ⟨rfl, rfl⟩
  | true => exact h rfl

theorem emit {k : κ} (h : P k) : Keeps I P (emit k : Op σ ε κ Unit) := by
  intro s hs
  exact ⟨hs, fun l hl ↦ by rwa [List.mem_singleton.1 hl]⟩

theorem mono {J : σ → Prop} {Q : κ → Prop} (h : Keeps I P x) (hJI : ∀ s, J s → I s)
    (hIJ : ∀ s, I s → J s) (hPQ : ∀ k, P k → Q k) : Keeps J Q x := by
  intro s hs
  exact ⟨hIJ _ (h s (hJI s hs)).1, fun k hk ↦ hPQ k ((h s (hJI s hs)).2 k hk)⟩

end Keeps

end Op

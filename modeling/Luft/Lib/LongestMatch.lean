import Mathlib.Data.List.Induction
import Mathlib.Data.Nat.Find
import Mathlib.Order.Lattice

/-!
# Replacing the longest match

Rules give texts for keys.  A text is read from its front: the longest rule that it begins with is
replaced by its text, and where no rule matches, one character is left as it is (`First`, `Reads`).

Keys can also be typed one at a time: as long as some rule goes on, typing waits, and a character that
neither goes on nor begins a rule closes what was typed before it (`Typed`).  The two agree unless a rule
that begins inside the waiting keys goes over such a character: `typed_eq_reads_iff` says exactly when.
-/

set_option autoImplicit false

namespace LongestMatch

variable {α : Type*} (rule : List α → Option (List α))

/-- Keys that some rule begins with and goes on from. -/
def Waits (w : List α) : Prop := w ≠ [] ∧ ∃ u, rule u ≠ none ∧ w <+: u ∧ u ≠ w

/-- No rule matches at the front. -/
def NoMatch (w : List α) : Prop := ∀ v, v <+: w → v ≠ [] → rule v = none

/-- What a text is first replaced by: its longest match `u`, or a character that stays. -/
def First (w u text : List α) : Prop :=
  u <+: w ∧ u ≠ [] ∧
    (rule u = some text ∧ (∀ v, v <+: w → rule v ≠ none → v.length ≤ u.length) ∨
      u.length = 1 ∧ text = u ∧ NoMatch rule w)

/-- A text is read up to a rest of it. -/
inductive Reads : List α → List α → List α → Prop
  | refl (w : List α) : Reads w [] w
  | step {u text w out rest : List α} (h : First rule (u ++ w) u text) (hrest : Reads w out rest) :
      Reads (u ++ w) (text ++ out) rest

/-- A text is read until it waits. -/
inductive Settles : List α → List α → List α → Prop
  | refl (w : List α) (h : w = [] ∨ Waits rule w) : Settles w [] w
  | step {u text w out rest : List α} (hnot : ¬ Waits rule (u ++ w)) (h : First rule (u ++ w) u text)
      (hrest : Settles w out rest) : Settles (u ++ w) (text ++ out) rest

/-- A key that goes on with a rule, or begins one. -/
def Accepts (p : List α) (c : α) : Prop :=
  Waits rule (p ++ [c]) ∨ rule (p ++ [c]) ≠ none ∨ Waits rule [c] ∨ rule [c] ≠ none

/-- The text that comes of keys typed one at a time after some that wait. -/
inductive Typed : List α → List α → List α → Prop
  | done {p out : List α} (h : Reads rule p out []) : Typed p [] out
  | accept {p p' w out out' : List α} {c : α} (hc : Accepts rule p c) (h : Settles rule (p ++ [c]) out p')
      (hrest : Typed p' w out') : Typed p (c :: w) (out ++ out')
  | refuse {p w out out' : List α} {c : α} (hc : ¬ Accepts rule p c) (h : Reads rule p out [])
      (hrest : Typed [] w out') : Typed p (c :: w) (out ++ c :: out')

/-- A rule that begins inside waiting keys and goes over a character that is refused gives what comes out
without it. -/
def Harmless : Prop :=
  ∀ {p q : List α} {c : α} {t r before text kept rest beyond : List α}, Waits rule p → ¬ Accepts rule p c →
    Reads rule (p ++ c :: (t ++ r)) before (q ++ c :: (t ++ r)) →
    First rule (q ++ c :: (t ++ r)) (q ++ c :: t) text → Reads rule q kept [] → Reads rule r rest [] →
    Reads rule (t ++ r) beyond [] → text ++ rest = kept ++ c :: beyond

variable {rule} {w u v text text' out out' rest p q r s : List α} {c : α}

/-! ## The first match -/

theorem First.unique (h : First rule w u text) (h' : First rule w v text') : u = v ∧ text = text' := by
  obtain ⟨hu, hune, h⟩ := h
  obtain ⟨hv, hvne, h'⟩ := h'
  have hsame (hlength : u.length = v.length) : u = v := by
    rw [List.prefix_iff_eq_take.1 hu, List.prefix_iff_eq_take.1 hv, hlength]
  rcases h with ⟨hrule, hmax⟩ | ⟨hone, rfl, hnone⟩
  · rcases h' with ⟨hrule', hmax'⟩ | ⟨_, _, hnone⟩
    · have heq := hsame (Nat.le_antisymm (hmax' u hu (by rw [hrule]; exact Option.some_ne_none _))
        (hmax v hv (by rw [hrule']; exact Option.some_ne_none _)))
      subst heq
      exact ⟨rfl, Option.some.inj (hrule.symm.trans hrule')⟩
    · exact absurd (hrule.symm.trans (hnone u hu hune)) (Option.some_ne_none _)
  · rcases h' with ⟨hrule', _⟩ | ⟨hone', rfl, _⟩
    · exact absurd (hrule'.symm.trans (hnone v hv hvne)) (Option.some_ne_none _)
    · have heq := hsame (hone.trans hone'.symm)
      exact ⟨heq, heq⟩

variable (rule) in
theorem First.exists (hw : w ≠ []) : ∃ u text, First rule w u text := by
  classical
  by_cases hnone : NoMatch rule w
  · obtain ⟨c, w, rfl⟩ := List.exists_cons_of_ne_nil hw
    exact ⟨[c], [c], ⟨w, rfl⟩, List.cons_ne_nil _ _, .inr ⟨rfl, rfl, hnone⟩⟩
  · rw [NoMatch] at hnone
    push Not at hnone
    obtain ⟨v, hv, hvne, hrule⟩ := hnone
    obtain ⟨n, hn⟩ : ∃ n, n = Nat.findGreatest (fun n ↦ rule (w.take n) ≠ none) w.length := ⟨_, rfl⟩
    have hmax (x : List α) (hx : x <+: w) (hxrule : rule x ≠ none) : x.length ≤ n := by
      rw [hn]
      exact Nat.le_findGreatest hx.length_le (by rwa [← List.prefix_iff_eq_take.1 hx])
    have hspec : rule (w.take n) ≠ none := by
      rw [hn]
      exact Nat.findGreatest_spec (P := fun n ↦ rule (w.take n) ≠ none) hv.length_le
        (by rwa [← List.prefix_iff_eq_take.1 hv])
    have hle : n ≤ w.length := by
      rw [hn]
      exact Nat.findGreatest_le _
    obtain ⟨text, htext⟩ := Option.ne_none_iff_exists'.1 hspec
    have hlength : (w.take n).length = n := by rw [List.length_take, Nat.min_eq_left hle]
    refine ⟨w.take n, text, List.take_prefix _ _, fun hnil ↦ ?_, .inl ⟨htext, fun x hx hxrule ↦ ?_⟩⟩
    · have hpos := hmax v hv hrule
      rw [hnil, List.length_nil] at hlength
      exact hvne (List.length_eq_zero_iff.1 (Nat.le_zero.1 (hlength ▸ hpos)))
    · rw [hlength]
      exact hmax x hx hxrule

/-- **Where nothing waits**, what comes after does not matter. -/
theorem First.append (h : First rule w u text) (hnot : ¬ Waits rule w) (r : List α) :
    First rule (w ++ r) u text := by
  obtain ⟨hu, hune, h⟩ := h
  have hwne : w ≠ [] := by
    rintro rfl
    exact hune (List.prefix_nil.1 hu)
  have hinside (x : List α) (hx : x <+: w ++ r) (hrule : rule x ≠ none) : x <+: w := by
    rcases List.prefix_or_prefix_of_prefix hx (List.prefix_append w r) with hxw | hwx
    · exact hxw
    · by_contra hcon
      exact hnot ⟨hwne, x, hrule, hwx, fun heq ↦ hcon (heq ▸ List.prefix_rfl)⟩
  refine ⟨hu.trans (List.prefix_append w r), hune, ?_⟩
  rcases h with ⟨hrule, hmax⟩ | ⟨hone, htext, hnone⟩
  · exact .inl ⟨hrule, fun x hx hxrule ↦ hmax x (hinside x hx hxrule) hxrule⟩
  · refine .inr ⟨hone, htext, fun x hx hxne ↦ ?_⟩
    by_contra hxrule
    exact hxrule (hnone x (hinside x hx hxrule) hxne)

/-- A match does not need what comes after it. -/
theorem First.of_append (h : First rule (w ++ r) u text) (hu : u <+: w) : First rule w u text := by
  obtain ⟨-, hune, h⟩ := h
  refine ⟨hu, hune, ?_⟩
  rcases h with ⟨hrule, hmax⟩ | ⟨hone, htext, hnone⟩
  · exact .inl ⟨hrule, fun x hx ↦ hmax x (hx.trans (List.prefix_append w r))⟩
  · exact .inr ⟨hone, htext, fun x hx ↦ hnone x (hx.trans (List.prefix_append w r))⟩

/-! ## Reading -/

namespace Reads

theorem trans {middle : List α} (h : Reads rule w out middle) (h' : Reads rule middle out' rest) :
    Reads rule w (out ++ out') rest := by
  induction h with
  | refl => exact h'
  | step hfirst _ ih =>
    rw [List.append_assoc]
    exact .step hfirst (ih h')

theorem suffix (h : Reads rule w out rest) : rest <:+ w := by
  induction h with
  | refl => exact List.suffix_rfl
  | @step u _ w _ _ _ _ ih => exact ih.trans (List.suffix_append u w)

theorem eq_nil (h : Reads rule [] out rest) : out = [] := by
  generalize hw : ([] : List α) = w at h
  cases h with
  | refl => exact hw
  | step hfirst _ => exact absurd (List.append_eq_nil_iff.1 hw.symm).1 hfirst.2.1

/-- Reading goes on from wherever it has come to. -/
theorem go_on {middle : List α} (h : Reads rule w out []) (h' : Reads rule w out' middle) :
    ∃ out'', Reads rule middle out'' [] ∧ out = out' ++ out'' := by
  induction h' generalizing out with
  | refl => exact ⟨out, h, rfl⟩
  | @step u text w' out' middle hfirst _ ih =>
    generalize hw : u ++ w' = whole at h
    cases h with
    | refl => exact absurd (List.append_eq_nil_iff.1 hw).1 hfirst.2.1
    | @step v text' w'' out _ hfirst' hrest =>
      rw [hw] at hfirst
      obtain ⟨rfl, rfl⟩ := hfirst.unique hfirst'
      obtain ⟨out'', hmiddle, rfl⟩ := ih (List.append_cancel_left hw ▸ hrest)
      exact ⟨out'', hmiddle, (List.append_assoc ..).symm⟩

theorem unique (h : Reads rule w out []) (h' : Reads rule w out' []) : out = out' := by
  obtain ⟨out'', hnil, rfl⟩ := h.go_on h'
  rw [hnil.eq_nil, List.append_nil]

variable (rule) in
theorem «exists» (w : List α) : ∃ out, Reads rule w out [] := by
  induction hn : w.length using Nat.strong_induction_on generalizing w with
  | _ n ih =>
    by_cases hw : w = []
    · subst hw
      exact ⟨[], .refl []⟩
    · obtain ⟨u, text, hfirst⟩ := First.exists rule hw
      obtain ⟨w', rfl⟩ := hfirst.1
      have hpos := List.length_pos_iff.2 hfirst.2.1
      rw [List.length_append] at hn
      obtain ⟨out, hout⟩ := ih w'.length (by omega) w' rfl
      exact ⟨text ++ out, .step hfirst hout⟩

/-- What is read before `s` does not need it. -/
theorem of_append (h : Reads rule (p ++ s) out (q ++ s)) : Reads rule p out q := by
  generalize hw : p ++ s = whole at h
  generalize hrest : q ++ s = rest at h
  induction h generalizing p with
  | refl w =>
    rw [List.append_cancel_right (hw.trans hrest.symm)]
    exact .refl q
  | @step u text w out rest hfirst hreads ih =>
    obtain ⟨a, ha⟩ := hreads.suffix
    rw [← hrest, ← List.append_assoc] at ha
    rw [← ha, ← List.append_assoc] at hw
    rw [List.append_cancel_right hw]
    refine .step (First.of_append (r := s) ?_ (List.prefix_append u _)) (ih ha hrest)
    rwa [List.append_assoc, ha]

end Reads

theorem Settles.waits (h : Settles rule w out rest) : rest = [] ∨ Waits rule rest := by
  induction h with
  | refl _ h => exact h
  | step _ _ _ ih => exact ih

/-- What has settled is read the same whatever comes after. -/
theorem Settles.reads (h : Settles rule w out rest) (r : List α) :
    Reads rule (w ++ r) out (rest ++ r) := by
  induction h with
  | refl => exact .refl _
  | step hnot hfirst _ ih =>
    have hmore := hfirst.append hnot r
    rw [List.append_assoc] at hmore ⊢
    exact .step hmore ih

variable (rule) in
theorem Settles.exists (w : List α) : ∃ out rest, Settles rule w out rest := by
  induction hn : w.length using Nat.strong_induction_on generalizing w with
  | _ n ih =>
    by_cases hw : w = [] ∨ Waits rule w
    · exact ⟨[], w, .refl w hw⟩
    · rw [not_or] at hw
      obtain ⟨u, text, hfirst⟩ := First.exists rule hw.1
      obtain ⟨w', rfl⟩ := hfirst.1
      have hpos := List.length_pos_iff.2 hfirst.2.1
      rw [List.length_append] at hn
      obtain ⟨out, rest, hout⟩ := ih w'.length (by omega) w' rfl
      exact ⟨text ++ out, rest, .step hw.2 hfirst hout⟩

theorem Settles.unique {rest' : List α} (h : Settles rule w out rest) (h' : Settles rule w out' rest') :
    out = out' ∧ rest = rest' := by
  induction h generalizing out' with
  | refl w hw =>
    generalize hstart : w = start at h'
    cases h' with
    | refl => exact ⟨rfl, rfl⟩
    | step hnot hfirst =>
      rw [hstart] at hw
      exact absurd (List.append_eq_nil_iff.1 (hw.resolve_right hnot)).1 hfirst.2.1
  | @step u text w out rest hnot hfirst _ ih =>
    generalize hstart : u ++ w = start at h'
    cases h' with
    | refl _ hw =>
      rw [← hstart] at hw
      exact absurd (List.append_eq_nil_iff.1 (hw.resolve_right hnot)).1 hfirst.2.1
    | step _ hfirst' hrest =>
      rw [hstart] at hfirst
      obtain ⟨rfl, rfl⟩ := hfirst.unique hfirst'
      obtain ⟨rfl, hsame⟩ := ih (List.append_cancel_left hstart ▸ hrest)
      exact ⟨rfl, hsame⟩

/-! ## Typing -/

theorem Typed.unique (h : Typed rule p w out) (h' : Typed rule p w out') : out = out' := by
  induction h generalizing out' with
  | done h =>
    cases h' with
    | done h' => exact h.unique h'
  | accept hc h _ ih =>
    cases h' with
    | accept _ h' hrest' =>
      obtain ⟨rfl, rfl⟩ := h.unique h'
      rw [ih hrest']
    | refuse hc' => exact absurd hc hc'
  | refuse hc h _ ih =>
    cases h' with
    | accept hc' => exact absurd hc' hc
    | refuse _ h' hrest' => rw [h.unique h', ih hrest']

variable (rule) in
theorem Typed.exists (p w : List α) : ∃ out, Typed rule p w out := by
  induction w generalizing p with
  | nil =>
    obtain ⟨out, hout⟩ := Reads.exists rule p
    exact ⟨out, .done hout⟩
  | cons c w ih =>
    by_cases hc : Accepts rule p c
    · obtain ⟨out, p', hout⟩ := Settles.exists rule (p ++ [c])
      obtain ⟨out', hout'⟩ := ih p'
      exact ⟨out ++ out', .accept hc hout hout'⟩
    · obtain ⟨out, hout⟩ := Reads.exists rule p
      obtain ⟨out', hout'⟩ := ih []
      exact ⟨out ++ c :: out', .refuse hc hout hout'⟩

theorem Waits.of_prefix (h : Waits rule (p ++ q)) (hp : p ≠ []) : Waits rule p := by
  obtain ⟨-, u, hu, hpre, hne⟩ := h
  refine ⟨hp, u, hu, (List.prefix_append p q).trans hpre, fun heq ↦ hne ?_⟩
  have hle := hpre.length_le
  rw [heq, List.length_append] at hle
  rw [heq, List.length_eq_zero_iff.1 (by omega : q.length = 0), List.append_nil]

/-- Keys that wait are typed without any text coming of them. -/
theorem Typed.of_waits (hp : Waits rule p) (h : Typed rule p w out) : Typed rule [] (p ++ w) out := by
  induction p using List.reverseRecOn generalizing w with
  | nil => exact absurd rfl hp.1
  | append_singleton p c ih =>
    have hstep : Typed rule p (c :: w) ([] ++ out) := .accept (.inl hp) (.refl _ (.inr hp)) h
    rw [List.append_assoc, List.singleton_append]
    by_cases hnil : p = []
    · rw [hnil] at hstep ⊢
      exact hstep
    · exact ih (hp.of_prefix hnil) hstep

/-- A character that is refused stays as it is. -/
theorem first_of_refused (hc : ¬ Accepts rule p c) (w : List α) : First rule (c :: w) [c] [c] := by
  refine ⟨⟨w, rfl⟩, List.cons_ne_nil _ _, .inr ⟨rfl, rfl, fun v hv hvne ↦ ?_⟩⟩
  by_contra hrule
  obtain ⟨d, v, rfl⟩ := List.exists_cons_of_ne_nil hvne
  obtain ⟨rfl, -⟩ := List.cons_prefix_cons.1 hv
  by_cases hnil : v = []
  · exact hc (.inr (.inr (.inr (hnil ▸ hrule))))
  · refine hc (.inr (.inr (.inl ⟨List.cons_ne_nil _ _, d :: v, hrule, ⟨v, rfl⟩, fun heq ↦ hnil ?_⟩)))
    exact (List.cons.inj heq).2

/-- **A refused character** closes what was typed before it. -/
theorem Harmless.reads (hharmless : Harmless rule) (hp : p = [] ∨ Waits rule p) (hc : ¬ Accepts rule p c)
    (h : Reads rule p out []) (hrest : Reads rule w out' []) :
    Reads rule (p ++ c :: w) (out ++ c :: out') [] := by
  have hlast : Reads rule (c :: w) (c :: out') [] := .step (u := [c]) (first_of_refused hc w) hrest
  rcases hp with rfl | hp
  · rwa [h.eq_nil]
  -- each way that the keys are read is the way that they are read with what comes after
  suffices hall : ∀ {q kept before : List α}, Reads rule q kept [] →
      Reads rule (p ++ c :: w) before (q ++ c :: w) → Reads rule (q ++ c :: w) (kept ++ c :: out') [] from
    hall h (.refl _)
  intro q kept before hq hbefore
  generalize hnil : ([] : List α) = stop at hq
  induction hq generalizing before with
  | refl => rwa [← hnil]
  | @step u text q kept _ hfirst hkept ih =>
    subst hnil
    obtain ⟨v, text', hfirst'⟩ := First.exists rule (w := u ++ q ++ c :: w)
      (List.append_ne_nil_of_right_ne_nil _ (List.cons_ne_nil _ _))
    by_cases hv : v <+: u ++ q
    · obtain ⟨rfl, rfl⟩ := hfirst.unique (hfirst'.of_append hv)
      rw [List.append_assoc] at hfirst' hbefore ⊢
      rw [List.append_assoc]
      exact .step hfirst' (ih (hbefore.trans (.step hfirst' (.refl _))) rfl)
    · obtain ⟨t, rfl⟩ := (List.prefix_or_prefix_of_prefix hfirst'.1
        (List.prefix_append (u ++ q) (c :: w))).resolve_left hv
      cases t with
      | nil =>
        rw [List.append_nil] at hv
        exact absurd List.prefix_rfl hv
      | cons d t =>
        obtain ⟨rfl, r, rfl⟩ := List.cons_prefix_cons.1 ((List.prefix_append_right_inj _).1 hfirst'.1)
        obtain ⟨rest, hr⟩ := Reads.exists rule r
        rw [← hharmless hp hc hbefore hfirst' (.step hfirst hkept) hr hrest]
        have hsplit : u ++ q ++ d :: (t ++ r) = (u ++ q ++ d :: t) ++ r := by
          rw [List.append_assoc (u ++ q), List.cons_append]
        rw [hsplit] at hfirst' ⊢
        exact .step hfirst' hr

theorem Harmless.typed_eq (hharmless : Harmless rule) (h : Typed rule p w out)
    (hp : p = [] ∨ Waits rule p) (h' : Reads rule (p ++ w) out' []) : out = out' := by
  induction h generalizing out' with
  | done h =>
    rw [List.append_nil] at h'
    exact h.unique h'
  | @accept p p' w out _ c hc h hrest ih =>
    have hmore := h.reads w
    rw [List.append_assoc, List.singleton_append] at hmore
    obtain ⟨out'', hout, rfl⟩ := h'.go_on hmore
    rw [ih h.waits hout]
  | @refuse p w out _ c hc h hrest ih =>
    obtain ⟨beyond, hover⟩ := Reads.exists rule w
    rw [ih (.inl rfl) hover]
    exact (hharmless.reads hp hc h hover).unique h'

/-- **Typing key by key agrees with reading it all at once** just when the rules that go over a refused
character are harmless. -/
theorem typed_eq_reads_iff : (∀ w, ∃ out, Typed rule [] w out ∧ Reads rule w out []) ↔ Harmless rule := by
  refine ⟨fun hall p q c t r before text kept rest beyond hp hc hbefore hfirst hkept hrest hover ↦ ?_,
    fun h w ↦ ?_⟩
  · obtain ⟨given, hgiven⟩ := Reads.exists rule p
    obtain ⟨typed, htyped, hread⟩ := hall (t ++ r)
    obtain ⟨whole, hwhole, hreads⟩ := hall (p ++ c :: (t ++ r))
    rw [hwhole.unique (Typed.of_waits hp (.refuse hc hgiven htyped)), hread.unique hover,
      hgiven.unique (hbefore.of_append.trans hkept)] at hreads
    have hsplit : q ++ c :: (t ++ r) = (q ++ c :: t) ++ r := by rw [List.append_assoc, List.cons_append]
    have hother : Reads rule (p ++ c :: (t ++ r)) (before ++ (text ++ rest)) [] := by
      refine hbefore.trans ?_
      rw [hsplit] at hfirst ⊢
      exact .step hfirst hrest
    have heq := hother.unique hreads
    rw [List.append_assoc] at heq
    exact List.append_cancel_left heq
  · obtain ⟨out, hout⟩ := Typed.exists rule [] w
    obtain ⟨out', hout'⟩ := Reads.exists rule w
    exact ⟨out, hout, h.typed_eq hout (.inl rfl) hout' ▸ hout'⟩

/-- Rules that never wait. -/
theorem harmless_of_not_waits (h : ∀ p, ¬ Waits rule p) : Harmless rule :=
  fun hp _ _ _ _ _ _ ↦ absurd hp (h _)

end LongestMatch

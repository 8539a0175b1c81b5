import Mathlib.Data.List.Basic

/-!
# Items in a stream

A parser looks at what has arrived: it finds an item at its beginning and says how much of it that is, or
waits for more, or finds it malformed.  `drain` takes items off as long as there are any.  A `Steady` parser
does not change its mind when more arrives, so it makes no difference how a stream is cut (`drain_append`).
-/

set_option autoImplicit false

namespace Streaming

variable {α β ε : Type*} {parse : List β → Except ε (Option (α × ℕ))} {stream rest more : List β}
  {a : α} {items : List α} {e : ε} {n : ℕ}

/-- What was decided stays so when more arrives. -/
structure Steady (parse : List β → Except ε (Option (α × ℕ))) : Prop where
  pos : ∀ stream a n, parse stream = .ok (some (a, n)) → 0 < n ∧ n ≤ stream.length
  item : ∀ stream a n more, parse stream = .ok (some (a, n)) → parse (stream ++ more) = .ok (some (a, n))
  malformed : ∀ stream e more, parse stream = .error e → parse (stream ++ more) = .error e

def drainWith (parse : List β → Except ε (Option (α × ℕ))) : ℕ → List β → List α × Except ε (List β)
  | 0, stream => ([], .ok stream)
  | fuel + 1, stream =>
    match parse stream with
    | .ok (some (a, n)) => (a :: (drainWith parse fuel (stream.drop n)).1, (drainWith parse fuel (stream.drop n)).2)
    | .ok none => ([], .ok stream)
    | .error e => ([], .error e)

/-- The items at the beginning of a stream, and what is left of it. -/
def drain (parse : List β → Except ε (Option (α × ℕ))) (stream : List β) : List α × Except ε (List β) :=
  drainWith parse (stream.length + 1) stream

theorem drain_none (h : parse stream = .ok none) : drain parse stream = ([], .ok stream) := by
  rw [drain, drainWith, h]

theorem drain_malformed (h : parse stream = .error e) : drain parse stream = ([], .error e) := by
  rw [drain, drainWith, h]

theorem drainWith_eq (hparse : Steady parse) {fuel fuel' : ℕ} (h : stream.length < fuel) (h' : stream.length < fuel') :
    drainWith parse fuel stream = drainWith parse fuel' stream := by
  induction fuel generalizing fuel' stream with
  | zero => omega
  | succ fuel ih =>
    cases fuel' with
    | zero => omega
    | succ fuel' =>
      rw [drainWith, drainWith]
      cases hstep : parse stream with
      | error e => rfl
      | ok found =>
        cases found with
        | none => rfl
        | some found =>
          obtain ⟨a, n⟩ := found
          have hpos := hparse.pos stream a n hstep
          have hlength : (stream.drop n).length = stream.length - n := List.length_drop
          have hrest : drainWith parse fuel (stream.drop n) = drainWith parse fuel' (stream.drop n) :=
            ih (by omega) (by omega)
          dsimp only
          rw [hrest]

theorem drain_item (hparse : Steady parse) (h : parse stream = .ok (some (a, n))) :
    drain parse stream = (a :: (drain parse (stream.drop n)).1, (drain parse (stream.drop n)).2) := by
  have hpos := hparse.pos stream a n h
  have hlength : (stream.drop n).length = stream.length - n := List.length_drop
  have hrest : drainWith parse stream.length (stream.drop n) = drain parse (stream.drop n) :=
    drainWith_eq hparse (by omega) (by omega)
  rw [drain, drainWith, h]
  dsimp only
  rw [hrest]

/-- The induction over the items of a stream. -/
theorem drain_induction (hparse : Steady parse) {P : List β → Prop} (none : ∀ stream, parse stream = .ok none → P stream)
    (malformed : ∀ stream e, parse stream = .error e → P stream)
    (item : ∀ stream a n, parse stream = .ok (some (a, n)) → P (stream.drop n) → P stream) (stream : List β) :
    P stream := by
  induction hlength : stream.length using Nat.strongRecOn generalizing stream with
  | ind length ih =>
    cases h : parse stream with
    | error e => exact malformed stream e h
    | ok found =>
      cases found with
      | none => exact none stream h
      | some found =>
        have hpos := hparse.pos stream found.1 found.2 h
        exact item stream found.1 found.2 h (ih _ (by rw [List.length_drop]; omega) _ rfl)

/-- What is left is waiting for more. -/
theorem parse_rest (hparse : Steady parse) (h : (drain parse stream).2 = .ok rest) : parse rest = .ok none := by
  induction stream using drain_induction hparse with
  | none stream hnone =>
    rw [drain_none hnone] at h
    cases h
    exact hnone
  | malformed stream e herror =>
    rw [drain_malformed herror] at h
    cases h
  | item stream a n hitem ih =>
    rw [drain_item hparse hitem] at h
    exact ih h

/-- **More of the stream** goes on where the items ended. -/
theorem drain_append (hparse : Steady parse) (more : List β) (h : drain parse stream = (items, .ok rest)) :
    drain parse (stream ++ more) = (items ++ (drain parse (rest ++ more)).1, (drain parse (rest ++ more)).2) := by
  induction stream using drain_induction hparse generalizing items with
  | none stream hnone =>
    rw [drain_none hnone] at h
    cases h
    rfl
  | malformed stream e herror =>
    rw [drain_malformed herror] at h
    cases h
  | item stream a n hitem ih =>
    rw [drain_item hparse hitem] at h
    obtain ⟨rfl, hrest⟩ := Prod.mk.inj h
    have hpos := hparse.pos stream a n hitem
    rw [drain_item hparse (hparse.item stream a n more hitem), List.drop_append_of_le_length hpos.2,
      ih (Prod.ext rfl hrest), List.cons_append]

theorem drain_append_malformed (hparse : Steady parse) (more : List β) (h : drain parse stream = (items, .error e)) :
    drain parse (stream ++ more) = (items, .error e) := by
  induction stream using drain_induction hparse generalizing items with
  | none stream hnone =>
    rw [drain_none hnone] at h
    cases h
  | malformed stream e' herror =>
    rw [drain_malformed herror] at h
    cases h
    exact drain_malformed (hparse.malformed stream e more herror)
  | item stream a n hitem ih =>
    rw [drain_item hparse hitem] at h
    obtain ⟨rfl, hrest⟩ := Prod.mk.inj h
    have hpos := hparse.pos stream a n hitem
    rw [drain_item hparse (hparse.item stream a n more hitem), List.drop_append_of_le_length hpos.2,
      ih (Prod.ext rfl hrest)]

end Streaming

import Luft.Mailman.Imap

/-!
# Whether parsing a response ends

The parser goes forward, except for one step: where a literal begins so far in and announces so much
that the sum is no machine word, what is left of the sum may be a position before it.  In a list the
parser then reads the same again, for ever (`never_ends`).

Every other step goes forward, and every value takes a byte at least, so parsing ends, inside its
input and never going back, exactly where no literal it comes to leads back (`parse_ends_iff`).
-/

set_option autoImplicit false

namespace Mailman

namespace Imap

/-- A move that does not lead back. -/
def Event.Forward : Event → Prop
  | .moved before after => before ≤ after
  | .literal _ => True

/-- A literal that does not lead back. -/
def Literal.Fits (input : Bytes) (l : Literal) : Prop := l.start ≤ l.stop input

/-- A literal, if it is one, that does not lead back. -/
def Event.Fits (input : Bytes) : Event → Prop
  | .moved _ _ => True
  | .literal l => l.Fits input

/-- Parsing ends, inside its input, and its position never moves back. -/
def Ends (line : Bytes) : Prop :=
  (∃ fuel response, (parse fuel (.new line)).result = .ok response) ∧
    ∀ fuel, (parse fuel (.new line)).result ≠ .error .outside ∧
      ∀ k ∈ (parse fuel (.new line)).log, k.Forward

/-! ## What a part of the parser does -/

/-- A run from `s` stays inside the input, and goes back exactly if a literal leads it back.  If none
does and there is enough fuel, it ends with `B`. -/
structure Run {α : Type} (enough : Prop) (s : Parser) (o : Outcome Parser Stop Event α)
    (B : α → Parser → Prop) : Prop where
  input : o.state.input = s.input
  inside : o.state.position ≤ s.input.length
  bounds : o.result ≠ .error .outside
  back : (∀ k ∈ o.log, k.Fits s.input) ↔ ∀ k ∈ o.log, k.Forward
  ends : enough → (∀ k ∈ o.log, k.Fits s.input) → ∃ a, o.result = .ok a ∧ B a o.state

section

variable {α β : Type} {enough : Prop} {s : Parser} {x : Reading α} {f : α → Reading β}
  {B : α → Parser → Prop} {C : β → Parser → Prop}

/-- **One part after the other.** -/
theorem Run.bind (hx : Run enough s (x s) B)
    (hf : ∀ a t, t.input = s.input → t.position ≤ t.input.length → Run (enough ∧ B a t) t (f a t) C) :
    Run enough s ((x >>= f) s) C := by
  rcases hresult : (x s).result with e | a
  · rw [Op.bind_of_error hresult]
    refine ⟨hx.input, hx.inside, ?_, hx.back, fun henough hfits ↦ ?_⟩
    · intro heq
      exact hx.bounds (hresult.trans (congrArg Except.error (Except.error.inj heq)))
    · obtain ⟨a, ha, -⟩ := hx.ends henough hfits
      rw [hresult] at ha
      cases ha
  · rw [Op.bind_of_ok hresult]
    have hrest := hf a (x s).state hx.input (by rw [hx.input]; exact hx.inside)
    have hinput := hrest.input
    have hback := hrest.back
    have hends := hrest.ends
    rw [hx.input] at hinput hback hends
    have hinside := hrest.inside
    rw [hx.input] at hinside
    refine ⟨hinput, hinside, hrest.bounds, ?_, fun henough hfits ↦ ?_⟩
    · simp only [List.mem_append, or_imp, forall_and]
      exact and_congr hx.back hback
    · simp only [List.mem_append, or_imp, forall_and] at hfits
      obtain ⟨a', ha', hB⟩ := hx.ends henough hfits.1
      rw [hresult] at ha'
      cases ha'
      exact hends ⟨henough, hB⟩ hfits.2

theorem Run.mono {enough' : Prop} {o : Outcome Parser Stop Event α} {B' : α → Parser → Prop}
    (h : Run enough s o B) (henough : enough' → enough) (hB : ∀ a t, enough' → B a t → B' a t) :
    Run enough' s o B' := by
  refine ⟨h.input, h.inside, h.bounds, h.back, fun henough' hfits ↦ ?_⟩
  obtain ⟨a, ha, hb⟩ := h.ends (henough henough') hfits
  exact ⟨a, ha, hB a _ henough' hb⟩

/-- Nothing is done. -/
theorem Run.pure {a : α} (hs : s.position ≤ s.input.length) (h : enough → B a s) :
    Run enough s ((Pure.pure a : Reading α) s) B := by
  refine ⟨rfl, hs, fun heq ↦ ?_, ?_, fun henough _ ↦ ⟨a, rfl, h henough⟩⟩
  · cases heq
  · exact iff_of_true (fun _ hk ↦ absurd hk List.not_mem_nil) fun _ hk ↦ absurd hk List.not_mem_nil

theorem Run.fuel (hs : s.position ≤ s.input.length) (h : ¬ enough) :
    Run enough s ((Op.fail .fuel : Reading α) s) B := by
  refine ⟨rfl, hs, fun heq ↦ ?_, ?_, fun henough ↦ absurd henough h⟩
  · cases heq
  · exact iff_of_true (fun _ hk ↦ absurd hk List.not_mem_nil) fun _ hk ↦ absurd hk List.not_mem_nil

/-- A move forward. -/
theorem Run.moveTo {n : ℕ} (hle : s.position ≤ n) (hn : n ≤ s.input.length) :
    Run enough s (moveTo n s) fun _ t ↦ t = ⟨s.input, n⟩ := by
  refine ⟨rfl, hn, fun heq ↦ ?_, ?_, fun _ _ ↦ ⟨(), rfl, rfl⟩⟩
  · cases heq
  · refine iff_of_true (fun k hk ↦ ?_) fun k hk ↦ ?_
    · obtain rfl := List.mem_singleton.1 hk
      exact trivial
    · obtain rfl := List.mem_singleton.1 hk
      exact hle

theorem state_bind (f : Parser → Reading α) : (Op.state >>= f) s = f s s := Op.bind_of_eq_ok rfl

theorem slice_bind {start stop : ℕ} (f : Bytes → Reading α) (h : start ≤ stop)
    (hstop : stop ≤ s.input.length) :
    (slice start stop >>= f) s = f ((s.input.take stop).drop start) s := by
  refine Op.bind_of_eq_ok ?_
  rw [slice, state_bind, Op.require_bind, if_pos (decide_eq_true ⟨h, hstop⟩)]
  rfl

/-- A position of the same input from which the parser has not gone back. -/
def Later (s t : Parser) : Prop := t.input = s.input ∧ s.position ≤ t.position

/-- It has taken a byte. -/
def Past (s t : Parser) : Prop := t.input = s.input ∧ s.position < t.position

theorem run_skip_spaces (hs : s.position ≤ s.input.length) :
    Run enough s (skip_spaces s) fun _ t ↦ Later s t ∧ t.input[t.position]? ≠ some (byte ' ') := by
  rw [skip_spaces, state_bind]
  obtain ⟨skipped, hskipped⟩ : ∃ skipped,
      (s.input.drop s.position).takeWhile (· = byte ' ') = skipped := ⟨_, rfl⟩
  have hprefix := List.takeWhile_prefix (· = byte ' ') (l := s.input.drop s.position)
  rw [hskipped] at hprefix
  have hlength := hprefix.length_le
  rw [List.length_drop] at hlength
  rw [hskipped]
  refine (Run.moveTo (Nat.le_add_right ..) (by omega)).mono id fun _ t _ ht ↦ ?_
  rw [ht]
  refine ⟨⟨rfl, Nat.le_add_right ..⟩, fun hspace ↦ ?_⟩
  -- the byte after the spaces is none
  have hsplit := List.takeWhile_append_dropWhile (p := fun b ↦ decide (b = byte ' ')) (l := s.input.drop s.position)
  rw [hskipped] at hsplit
  have hdrop : (s.input.drop s.position).dropWhile (fun b ↦ decide (b = byte ' ')) =
      s.input.drop (s.position + skipped.length) := by
    rw [← List.drop_drop]
    conv_rhs => rw [← hsplit]
    exact List.drop_left.symm
  have hhead := List.head?_dropWhile_not (fun b ↦ decide (b = byte ' ')) (s.input.drop s.position)
  rw [hdrop, List.head?_drop, hspace] at hhead
  exact Bool.false_ne_true hhead.symm

theorem quotedFrom_le (bytes : Bytes) : (quotedFrom bytes).2 ≤ bytes.length := by
  fun_induction quotedFrom bytes with
  | case1 => exact Nat.zero_le _
  | case2 => exact Nat.le_refl _
  | case3 escaped rest ih => exact Nat.succ_le_succ (Nat.succ_le_succ ih)
  | case4 => exact Nat.succ_pos _
  | case5 first rest _ _ ih => exact Nat.succ_le_succ ih

theorem atomFrom_le (depth : ℕ) (bytes : Bytes) : atomFrom depth bytes ≤ bytes.length := by
  induction bytes generalizing depth with
  | nil => exact Nat.zero_le _
  | cons first rest ih =>
    rw [atomFrom, List.length_cons]
    split_ifs
    · exact Nat.succ_le_succ (ih _)
    · exact Nat.succ_le_succ (ih _)
    · exact Nat.zero_le _
    · exact Nat.succ_le_succ (ih _)

theorem atomFrom_pos {first : UInt8} (h : stops first = false) (bytes : Bytes) :
    0 < atomFrom 0 (first :: bytes) := by
  rw [atomFrom]
  split_ifs with _ _ hstop
  · exact Nat.succ_pos _
  · exact Nat.succ_pos _
  · rw [h] at hstop
    exact absurd hstop.1 Bool.false_ne_true
  · exact Nat.succ_pos _

theorem run_quoted (hs : s.position < s.input.length) : Run enough s (quoted s) fun _ t ↦ Past s t := by
  have hle := quotedFrom_le (s.input.drop (s.position + 1))
  rw [List.length_drop] at hle
  rw [quoted, state_bind]
  refine (Run.moveTo (Nat.le_add_right_of_le (Nat.le_succ _)) (by omega)).bind fun _ t hinput ht ↦ ?_
  refine .pure ht fun ⟨_, hmoved⟩ ↦ ⟨hinput, ?_⟩
  rw [hmoved]
  exact Nat.lt_of_lt_of_le (Nat.lt_succ_self _) (Nat.le_add_right ..)

theorem run_atom {first : UInt8} (hfirst : s.input[s.position]? = some first) :
    Run enough s (atom s) fun _ t ↦ stops first = false → Past s t := by
  have hlt := (List.getElem?_eq_some_iff.1 hfirst).1
  have hle := atomFrom_le 0 (s.input.drop s.position)
  rw [List.length_drop] at hle
  rw [atom, state_bind]
  refine (Run.moveTo (Nat.le_add_right ..) (by omega)).bind fun _ t hinput ht ↦ ?_
  rw [slice_bind _ (Nat.le_add_right ..) (by rw [hinput]; omega)]
  refine .pure ht fun ⟨_, hmoved⟩ hstops ↦ ⟨hinput, ?_⟩
  have hpos : 0 < atomFrom 0 (s.input.drop s.position) := by
    rw [List.drop_eq_getElem_cons hlt, (List.getElem?_eq_some_iff.1 hfirst).2]
    exact atomFrom_pos hstops _
  rw [hmoved]
  exact Nat.lt_add_of_pos_right hpos

/-- The step to the end of a literal. -/
theorem run_announced {l : Literal} (hl : l.start = s.position) (found : α) :
    Run enough s ((do
      Op.emit (.literal l)
      moveTo (l.stop s.input)
      pure found : Reading α) s) fun a t ↦
        a = found ∧ t = ⟨s.input, l.stop s.input⟩ ∧ s.position ≤ l.stop s.input := by
  refine ⟨rfl, Nat.min_le_right .., fun heq ↦ ?_, ?_, fun _ hfits ↦ ⟨found, rfl, rfl, rfl, ?_⟩⟩
  · cases heq
  · show (∀ k ∈ [Event.literal l, .moved s.position (l.stop s.input)], k.Fits s.input) ↔
      ∀ k ∈ [Event.literal l, .moved s.position (l.stop s.input)], k.Forward
    simp only [List.forall_mem_cons, Event.Fits, Event.Forward, List.not_mem_nil, Literal.Fits, hl]
    simp
  · have := hfits (.literal l) List.mem_cons_self
    rwa [Event.Fits, Literal.Fits, hl] at this

/-- **A literal** is the one step that may lead back. -/
theorem run_literal (hfirst : s.input[s.position]? = some (byte '{')) :
    Run enough s (literal s) fun found t ↦ Later s t ∧ (found ≠ none → Past s t) := by
  have hlt := (List.getElem?_eq_some_iff.1 hfirst).1
  have hstill : Later s s ∧ ((none : Option Bytes) ≠ none → Past s s) :=
    ⟨⟨rfl, Nat.le_refl _⟩, fun h ↦ absurd rfl h⟩
  rw [literal, state_bind, slice_bind _ hlt.le (Nat.le_refl _), List.take_length]
  rcases hi : (s.input.drop s.position).idxOf? (byte '}') with _ | i
  · exact .pure hlt.le fun _ ↦ hstill
  · obtain ⟨hin, hclose, -⟩ := List.idxOf?_eq_some_iff.1 hi
    rw [List.length_drop] at hin
    have hpos : 1 ≤ i := by
      refine Nat.one_le_iff_ne_zero.2 fun hzero ↦ ?_
      subst hzero
      rw [List.getElem_drop, ← Option.some_inj, ← List.getElem?_eq_getElem, Nat.add_zero, hfirst] at hclose
      exact absurd hclose (by decide)
    show Run enough s ((slice (s.position + 1) (s.position + i) >>= _) s) _
    rw [slice_bind _ (by omega) (by omega)]
    rcases announced ((s.input.take (s.position + i)).drop (s.position + 1)) with _ | length
    · exact .pure hlt.le fun _ ↦ hstill
    · refine (run_announced (l := ⟨s.position, s.position + i, length⟩) rfl _).mono id ?_
      rintro found t - ⟨rfl, rfl, hle⟩
      refine ⟨⟨rfl, hle⟩, fun hfound ↦ ⟨rfl, ?_⟩⟩
      -- where it has data, that is after where it begins
      split_ifs at hfound with hdata
      · exact Nat.lt_of_lt_of_le (show s.position < s.position + i + 3 by omega) hdata
      · exact absurd rfl hfound

theorem run_code (hs : s.position ≤ s.input.length) :
    Run enough s (code s) fun _ _ ↦ True := by
  rw [code]
  refine (run_skip_spaces hs).bind fun _ t _ ht ↦ ?_
  rw [state_bind]
  split_ifs with hopen
  · have hlt := (List.getElem?_eq_some_iff.1 hopen).1
    rw [slice_bind _ (by omega) (Nat.le_refl _), List.take_length]
    rcases hi : (t.input.drop (t.position + 1)).idxOf? (byte ']') with _ | i
    · exact .pure ht fun _ ↦ trivial
    · obtain ⟨hin, -⟩ := List.idxOf?_eq_some_iff.1 hi
      rw [List.length_drop] at hin
      refine (Run.moveTo (by omega) (by omega)).bind fun _ t' hinput ht' ↦ ?_
      rw [slice_bind _ (by omega) (by rw [hinput]; omega)]
      exact .pure ht' fun _ ↦ trivial
  · exact .pure ht fun _ ↦ trivial

theorem run_rest (hs : s.position ≤ s.input.length) : Run enough s (rest s) fun _ _ ↦ True := by
  rw [rest]
  refine (run_skip_spaces hs).bind fun _ t _ ht ↦ ?_
  rw [state_bind, slice_bind _ ht (Nat.le_refl _)]
  refine (Run.moveTo ht (Nat.le_refl _)).bind fun _ t' _ ht' ↦ ?_
  exact .pure ht' fun _ ↦ trivial

theorem run_skip_close (hs : s.position ≤ s.input.length) :
    Run enough s (skip_close s) fun _ t ↦ Later s t := by
  rw [skip_close, state_bind]
  by_cases hclose : s.input[s.position]? = some (byte ')')
  · have hlt := (List.getElem?_eq_some_iff.1 hclose).1
    rw [Op.onlyIf_pos (decide_eq_true hclose)]
    refine (Run.moveTo (Nat.le_succ _) hlt).mono id fun _ t _ ht ↦ ?_
    rw [ht]
    exact ⟨rfl, Nat.le_succ _⟩
  · rw [Op.onlyIf_neg (by rw [decide_eq_true_iff]; exact hclose)]
    exact .pure hs fun _ ↦ ⟨rfl, Nat.le_refl _⟩

end

/-! ## Values, one in the other -/

section

variable {enough : Prop} {s : Parser}

/-- What is left of the input, and the end of it. -/
def left (s : Parser) : ℕ := s.input.length - s.position + 1

/-- A value takes a byte at least. -/
def Takes (s : Parser) (found : Option Value) (t : Parser) : Prop :=
  Later s t ∧ (found ≠ none → Past s t)

/-- Values that are read from some position on. -/
theorem run_valuesOf {value : Reading (Option Value)} {fuel : ℕ}
    (hvalue : ∀ t : Parser, t.position ≤ t.input.length →
      Run (left t ≤ fuel) t (value t) fun found u ↦ Takes t found u)
    (hs : s.position ≤ s.input.length) (n : ℕ) :
    Run (left s ≤ fuel ∧ left s ≤ n) s (valuesOf value n s) fun _ t ↦ Later s t := by
  induction n generalizing s with
  | zero => exact .fuel hs fun h ↦ absurd h.2 (Nat.not_succ_le_zero _)
  | succ n ih =>
    rw [valuesOf]
    refine ((hvalue s hs).mono And.left fun _ _ _ h ↦ h).bind fun found t hinput ht ↦ ?_
    cases found with
    | none => exact .pure ht fun ⟨_, htakes⟩ ↦ htakes.1
    | some first =>
      have hless (h : Takes s (some first) t) : left t + 1 ≤ left s := by
        have := (h.2 (Option.some_ne_none _)).2
        rw [left, left, hinput]
        rw [hinput] at ht
        omega
      refine ((ih ht).mono (fun h ↦ ?_) fun _ _ _ hu ↦ hu).bind fun others u hinput' hu ↦ ?_
      · have := hless h.2
        exact ⟨by omega, by omega⟩
      · refine .pure hu fun ⟨⟨_, htakes⟩, hlater⟩ ↦ ⟨hlater.1.trans hinput, ?_⟩
        exact Nat.le_trans htakes.1.2 hlater.2

/-- **A value** takes a byte at least, and enough fuel for what is left of the input is enough. -/
theorem run_value (fuel : ℕ) (hs : s.position ≤ s.input.length) :
    Run (left s ≤ fuel) s (value fuel s) fun found t ↦ Takes s found t := by
  induction fuel generalizing s with
  | zero => exact .fuel hs fun h ↦ absurd h (Nat.not_succ_le_zero _)
  | succ fuel ih =>
    rw [value]
    refine (run_skip_spaces hs).bind fun _ t hinput ht ↦ ?_
    rw [state_bind]
    rcases hfirst : t.input[t.position]? with _ | first
    · exact .pure ht fun ⟨_, hlater, _⟩ ↦ ⟨hlater, fun h ↦ absurd rfl h⟩
    have hlt := (List.getElem?_eq_some_iff.1 hfirst).1
    have hpast {u : Parser} (hlater : Later s t) (h : Past t u) (found : Option Value) : Takes s found u :=
      ⟨⟨h.1.trans hlater.1, hlater.2.trans h.2.le⟩,
        fun _ ↦ ⟨h.1.trans hlater.1, Nat.lt_of_le_of_lt hlater.2 h.2⟩⟩
    dsimp only
    split_ifs with hends hopen hquote hliteral
    · exact .pure ht fun ⟨_, hlater, _⟩ ↦ ⟨hlater, fun h ↦ absurd rfl h⟩
    · refine (Run.moveTo (Nat.le_succ _) hlt).bind fun _ u hinput' hu ↦ ?_
      refine ((run_valuesOf (fun _ hw ↦ ih hw) hu fuel).mono ?_ fun _ _ _ h ↦ h).bind
        fun items v _ hv ↦ ?_
      · rintro ⟨⟨henough, hlater, -⟩, rfl⟩
        have := hlater.2
        have hlength := congrArg List.length hinput
        simp only [left] at henough ⊢
        omega
      · refine (run_skip_close hv).bind fun _ w _ hw ↦ ?_
        refine .pure hw fun ⟨⟨⟨⟨_, hlater, _⟩, hmoved⟩, hvalues⟩, hclosed⟩ ↦ hpast hlater ⟨?_, ?_⟩ _
        · rw [hclosed.1, hvalues.1, hmoved]
        · have := hvalues.2
          rw [hmoved] at this
          exact Nat.lt_of_lt_of_le (Nat.lt_of_succ_le this) hclosed.2
    · refine (run_quoted hlt).bind fun bytes u _ hu ↦ ?_
      exact .pure hu fun ⟨⟨_, hlater, _⟩, h⟩ ↦ hpast hlater h _
    · refine (run_literal (hliteral ▸ hfirst)).bind fun bytes u _ hu ↦ ?_
      refine .pure hu fun ⟨⟨_, hlater, _⟩, hfound⟩ ↦ ?_
      cases bytes with
      | none =>
        exact ⟨⟨hfound.1.1.trans hlater.1, hlater.2.trans hfound.1.2⟩, fun h ↦ absurd rfl h⟩
      | some bytes => exact hpast hlater (hfound.2 (Option.some_ne_none _)) _
    · refine (run_atom hfirst).bind fun text u _ hu ↦ ?_
      refine .pure hu fun ⟨⟨_, hlater, hspace⟩, h⟩ ↦ hpast hlater (h ?_) _
      -- the byte is none that ends an atom, since spaces were skipped
      rw [ne_eq, Option.some_inj] at hspace
      rw [not_or, not_or] at hends
      rw [stops, List.contains_eq_mem, decide_eq_false_iff_not]
      simp only [List.mem_cons, List.not_mem_nil, or_false, not_or]
      exact ⟨hspace, hopen, hends.2.2, hends.1, hends.2.1⟩

/-! ## A whole response -/

theorem run_word (fuel : ℕ) (hs : s.position ≤ s.input.length) :
    Run (s.input.length < fuel) s (word fuel s) fun _ _ ↦ True := by
  rw [word]
  refine ((run_value fuel hs).mono (fun h ↦ ?_) fun _ _ _ h ↦ h).bind fun _ t _ ht ↦ ?_
  · rw [left]
    omega
  · exact .pure ht fun _ ↦ trivial

theorem run_values (fuel : ℕ) (hs : s.position ≤ s.input.length) :
    Run (s.input.length < fuel) s (values fuel s) fun _ _ ↦ True := by
  refine (run_valuesOf (fun _ ht ↦ run_value fuel ht) hs fuel).mono (fun h ↦ ?_) fun _ _ _ _ ↦ trivial
  rw [left]
  omega

theorem run_untagged (fuel : ℕ) (hs : s.position ≤ s.input.length) :
    Run (s.input.length < fuel) s (untagged fuel s) fun _ _ ↦ True := by
  have hword {t : Parser} (hinput : t.input = s.input) (ht : t.position ≤ t.input.length) {P : Prop} :
      Run (s.input.length < fuel ∧ P) t (word fuel t) fun _ _ ↦ True :=
    (run_word fuel ht).mono (fun h ↦ hinput ▸ h.1) fun _ _ _ h ↦ h
  have hvalues {t : Parser} (hinput : t.input = s.input) (ht : t.position ≤ t.input.length) {P : Prop} :
      Run (s.input.length < fuel ∧ P) t (values fuel t) fun _ _ ↦ True :=
    (run_values fuel ht).mono (fun h ↦ hinput ▸ h.1) fun _ _ _ h ↦ h
  have hvalue {t : Parser} (hinput : t.input = s.input) (ht : t.position ≤ t.input.length) {P : Prop} :
      Run (s.input.length < fuel ∧ P) t (value fuel t) fun _ _ ↦ True := by
    refine (run_value fuel ht).mono (fun h ↦ ?_) fun _ _ _ _ ↦ trivial
    have := h.1
    rw [left, hinput]
    omega
  rw [untagged]
  refine (run_word fuel hs).bind fun first t hinput ht ↦ ?_
  cases first with
  | none => exact .pure ht fun _ ↦ trivial
  | some first =>
    dsimp only
    cases Status.parse first with
    | some status =>
      refine (run_code ht).bind fun found u _ hu ↦ ?_
      exact .pure hu fun _ ↦ trivial
    | none =>
      cases parseUnsigned 4294967296 first with
      | some number =>
        refine (hword hinput ht).bind fun kind u hinput' hu ↦ ?_
        split_ifs
        · exact .pure hu fun _ ↦ trivial
        · exact .pure hu fun _ ↦ trivial
        · refine ((hvalue (hinput'.trans hinput) hu).mono And.left fun _ _ _ h ↦ h).bind fun found v _ hv ↦ ?_
          exact .pure hv fun _ ↦ trivial
        · exact .pure hu fun _ ↦ trivial
      | none =>
        dsimp only
        split_ifs
        · refine (hvalues hinput ht).bind fun found u _ hu ↦ ?_
          exact .pure hu fun _ ↦ trivial
        · refine (hvalue hinput ht).bind fun attributes u hinput' hu ↦ ?_
          refine ((hword (hinput'.trans hinput) hu).mono And.left fun _ _ _ h ↦ h).bind
            fun delimiter v hinput'' hv ↦ ?_
          refine ((hword (hinput''.trans (hinput'.trans hinput)) hv).mono (fun h ↦ h.1.1) fun _ _ _ h ↦ h).bind
            fun name w _ hw ↦ ?_
          exact .pure hw fun _ ↦ trivial
        · refine (hvalues hinput ht).bind fun found u _ hu ↦ ?_
          exact .pure hu fun _ ↦ trivial
        · refine (hvalues hinput ht).bind fun found u _ hu ↦ ?_
          exact .pure hu fun _ ↦ trivial
        · exact .pure ht fun _ ↦ trivial

/-- **A response** is parsed with more fuel than it has bytes. -/
theorem run_parse (fuel : ℕ) (hs : s.position ≤ s.input.length) :
    Run (s.input.length < fuel) s (parse fuel s) fun _ _ ↦ True := by
  rw [parse]
  refine (run_word fuel hs).bind fun tag t hinput ht ↦ ?_
  dsimp only
  split_ifs
  · exact .pure ht fun _ ↦ trivial
  · refine ((run_untagged fuel ht).mono (fun h ↦ hinput ▸ h.1) fun _ _ _ h ↦ h).bind fun found u _ hu ↦ ?_
    exact .pure hu fun _ ↦ trivial
  · refine ((run_word fuel ht).mono (fun h ↦ hinput ▸ h.1) fun _ _ _ h ↦ h).bind fun status u _ hu ↦ ?_
    refine (run_code hu).bind fun found v _ hv ↦ ?_
    refine (run_rest hv).bind fun text w _ hw ↦ ?_
    exact .pure hw fun _ ↦ trivial

end

/-- **Parsing ends** exactly where no literal it comes to leads back. -/
theorem parse_ends_iff (line : Bytes) :
    Ends line ↔ ∀ fuel, ∀ l, .literal l ∈ (parse fuel (.new line)).log → l.Fits line := by
  have hrun (fuel : ℕ) := run_parse (s := .new line) fuel (Nat.zero_le _)
  have hfits (fuel : ℕ) : (∀ l, .literal l ∈ (parse fuel (.new line)).log → l.Fits line) ↔
      ∀ k ∈ (parse fuel (.new line)).log, k.Fits line := by
    constructor
    · rintro h (⟨before, after⟩ | l) hk
      · exact trivial
      · exact h l hk
    · exact fun h l hl ↦ h _ hl
  simp only [hfits]
  constructor
  · exact fun h fuel ↦ (hrun fuel).back.2 (h.2 fuel).2
  · intro h
    obtain ⟨response, hresponse, -⟩ := (hrun (line.length + 1)).ends (Nat.lt_succ_self _) (h _)
    exact ⟨⟨_, response, hresponse⟩, fun fuel ↦ ⟨(hrun fuel).bounds, (hrun fuel).back.1 (h fuel)⟩⟩

/-! ## A literal that leads back -/

/-- A search whose answer is a list with a literal in it: from 34 on, that long, is 9 again. -/
def wraps : Bytes := "* SEARCH ({18446744073709551591} )\r\n".toList.map byte

/-- The list that the literal is in begins where it leads back to. -/
theorem wraps_value (fuel : ℕ) {position : ℕ} (h : position = 8 ∨ position = 9) :
    (value (fuel + 2) ⟨wraps, position⟩).result = .ok (some (.list [])) ∧
      (value (fuel + 2) ⟨wraps, position⟩).state = ⟨wraps, 9⟩ := by
  rcases h with rfl | rfl
  · exact ⟨rfl, rfl⟩
  · exact ⟨rfl, rfl⟩

/-- Whatever the fuel, it is used up on the same list. -/
theorem wraps_values (fuel n : ℕ) {position : ℕ} (h : position = 8 ∨ position = 9) :
    (valuesOf (value fuel) n ⟨wraps, position⟩).result = .error .fuel := by
  induction n generalizing position with
  | zero => rfl
  | succ n ih =>
    rw [valuesOf]
    match fuel with
    | 0 => rfl
    | 1 => rcases h with rfl | rfl <;> rfl
    | fuel + 2 =>
      obtain ⟨hresult, hstate⟩ := wraps_value fuel h
      rw [Op.bind_of_ok hresult, hstate]
      show ((valuesOf (value (fuel + 2)) n >>= _) ⟨wraps, 9⟩).result = _
      rw [Op.bind_of_error (ih (.inr rfl))]

/-- **Parsing it never ends.** -/
theorem never_ends (fuel : ℕ) : (parse fuel (.new wraps)).result = .error .fuel := by
  cases fuel with
  | zero => rfl
  | succ fuel =>
    have hvalues : ((values (fuel + 1)) ⟨wraps, 8⟩).result = .error .fuel :=
      wraps_values (fuel + 1) (fuel + 1) (.inl rfl)
    have hfirst : (word (fuel + 1) ⟨wraps, 1⟩).result = .ok (some "SEARCH".toList) := rfl
    have huntagged : (untagged (fuel + 1) ⟨wraps, 1⟩).result = .error .fuel := by
      have hstate : (word (fuel + 1) ⟨wraps, 1⟩).state = ⟨wraps, 8⟩ := rfl
      rw [untagged, Op.bind_of_ok hfirst, hstate]
      show ((values (fuel + 1) >>= _) ⟨wraps, 8⟩).result = _
      rw [Op.bind_of_error hvalues]
    have htag : (word (fuel + 1) (.new wraps)).result = .ok (some ['*']) := rfl
    have hstate : (word (fuel + 1) (.new wraps)).state = ⟨wraps, 1⟩ := rfl
    rw [parse, Op.bind_of_ok htag, hstate]
    show ((untagged (fuel + 1) >>= _) ⟨wraps, 1⟩).result = _
    rw [Op.bind_of_error huntagged]

/-- A server can send it. -/
theorem sendable_wraps : Sendable wraps := ⟨wraps, [], by rfl⟩

theorem literal_leads_back : ¬ ∀ line, Sendable line → Ends line := by
  intro h
  obtain ⟨fuel, response, hresponse⟩ := (h wraps sendable_wraps).1
  rw [never_ends fuel] at hresponse
  cases hresponse

end Imap

end Mailman

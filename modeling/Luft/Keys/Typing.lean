import Luft.Keys.Session

/-!
# What comes of characters that are typed

With an input method that has rules but no words, and no rule that looks at what comes before, a session
keeps only keys that wait (`Session.plain`).  Each character goes on with them or closes them (`feed_plain`),
so that typing is `Typed` of `Lib.LongestMatch`, and it comes to what `resolve` makes of all the keys just
when the rules are `Harmless` (`typed_iff`).
-/

set_option autoImplicit false

namespace Keys

open LongestMatch

section

variable {rules : Rules} {pending produced before : Text}

/-! ## Replacing keys -/

/-- One round replaces the first match. -/
theorem resolveFrom_step (h : rules.Sound) (hplain : rules.contextual = false) {finished : Bool} (n : ℕ)
    (hpending : pending ≠ []) (hgo : finished ∨ ¬ Waits rules.rule pending) (produced before : Text) :
    ∃ u text w, pending = u ++ w ∧ First rules.rule (u ++ w) u text ∧
      resolveFrom rules before finished (n + 1) pending produced =
        resolveFrom rules before finished n w (produced ++ text) := by
  obtain ⟨length, text, hfound, hle, hfirst⟩ :=
    h.longestMatch_first hplain hpending (before ++ produced)
  refine ⟨pending.take length, text, pending.drop length, (List.take_append_drop _ _).symm, ?_, ?_⟩
  · rwa [List.take_append_drop]
  · rw [resolveFrom, if_neg hpending, if_neg, hfound]
    rintro ⟨hnot, hwaits⟩
    rcases hgo with hfinished | hgo
    · rw [hfinished] at hnot
      cases hnot
    · exact hgo ((h.waits_iff).1 hwaits)

theorem resolveFrom_reads (h : rules.Sound) (hplain : rules.contextual = false) (n : ℕ)
    (hn : pending.length ≤ n) (produced before : Text) :
    ∃ out, resolveFrom rules before true n pending produced = (produced ++ out, []) ∧
      Reads rules.rule pending out [] := by
  induction n generalizing pending produced with
  | zero =>
    obtain rfl := List.length_eq_zero_iff.1 (Nat.le_zero.1 hn)
    exact ⟨[], by rw [resolveFrom, List.append_nil], .refl []⟩
  | succ n ih =>
    by_cases hpending : pending = []
    · subst hpending
      exact ⟨[], by rw [resolveFrom, if_pos rfl, List.append_nil], .refl []⟩
    · obtain ⟨u, text, w, rfl, hfirst, hstep⟩ :=
        resolveFrom_step h hplain n hpending (.inl rfl) produced before
      have hpos := List.length_pos_iff.2 hfirst.2.1
      rw [List.length_append] at hn
      obtain ⟨out, hout, hreads⟩ := ih (by omega : w.length ≤ n) (produced ++ text)
      exact ⟨text ++ out, by rw [hstep, hout, List.append_assoc], .step hfirst hreads⟩

theorem resolveFrom_settles (h : rules.Sound) (hplain : rules.contextual = false) (n : ℕ)
    (hn : pending.length ≤ n) (produced before : Text) :
    ∃ out rest, resolveFrom rules before false n pending produced = (produced ++ out, rest) ∧
      Settles rules.rule pending out rest := by
  induction n generalizing pending produced with
  | zero =>
    obtain rfl := List.length_eq_zero_iff.1 (Nat.le_zero.1 hn)
    exact ⟨[], [], by rw [resolveFrom, List.append_nil], .refl [] (.inl rfl)⟩
  | succ n ih =>
    by_cases hwaits : pending = [] ∨ Waits rules.rule pending
    · refine ⟨[], pending, ?_, .refl pending hwaits⟩
      rw [resolveFrom, List.append_nil]
      by_cases hpending : pending = []
      · rw [if_pos hpending]
      · rw [if_neg hpending, if_pos ⟨rfl, h.waits_iff.2 (hwaits.resolve_left hpending)⟩]
    · rw [not_or] at hwaits
      obtain ⟨u, text, w, rfl, hfirst, hstep⟩ :=
        resolveFrom_step h hplain n hwaits.1 (.inr hwaits.2) produced before
      have hpos := List.length_pos_iff.2 hfirst.2.1
      rw [List.length_append] at hn
      obtain ⟨out, rest, hout, hsettles⟩ := ih (by omega : w.length ≤ n) (produced ++ text)
      exact ⟨text ++ out, rest, by rw [hstep, hout, List.append_assoc], .step hwaits.2 hfirst hsettles⟩

/-- **`resolve`** reads all of the keys. -/
theorem resolve_reads (h : rules.Sound) (hplain : rules.contextual = false) (pending before : Text) :
    ∃ out, resolve rules pending before true = (out, []) ∧ Reads rules.rule pending out [] :=
  resolveFrom_reads h hplain _ le_rfl [] before

theorem resolve_settles (h : rules.Sound) (hplain : rules.contextual = false) (pending before : Text) :
    ∃ out rest, resolve rules pending before false = (out, rest) ∧ Settles rules.rule pending out rest :=
  resolveFrom_settles h hplain _ le_rfl [] before

end

/-! ## A session without words -/

namespace Session

/-- A session that keeps keys that wait, and nothing else but what was written. -/
def plain (pending before : Text) (cursor : ℕ) : Session := ⟨pending, [], none, before, [], cursor, []⟩

variable {engine : Engine} (hrules : engine.rules.Sound) (hplain : engine.rules.contextual = false)
  (hwords : engine.has_words = false)

include hwords in
theorem produce_eq (session : Session) (text : Text) : session.produce engine text = session.commit text := by
  rw [produce, hwords]
  rfl

include hwords in
/-- What comes of the keys is committed. -/
theorem advance_plain {pending before out rest : Text} (cursor : ℕ) {finished : Bool}
    (h : resolve engine.rules pending before finished = (out, rest)) :
    ∃ before', (plain pending before cursor).advance engine finished =
      { plain rest before' cursor with committed := out } := by
  rw [advance]
  dsimp only [plain]
  rw [List.append_nil, h]
  dsimp only
  split_ifs with hout
  · exact ⟨before, by rw [hout]⟩
  · rw [produce_eq hwords]
    exact ⟨_, rfl⟩

include hrules in
theorem accepts_iff (hwords : engine.has_words = false) (session : Session) (c : Char) :
    session.accepts engine c ↔ Accepts engine.rules.rule session.pending c := by
  rw [accepts, hwords, if_neg (by decide), Bool.or_eq_true, hrules.continues_iff, Accepts, or_assoc]
  exact or_congr_right (or_congr_right hrules.continues_iff)

include hrules hplain hwords in
/-- **One character** goes on with the keys that wait, or closes them. -/
theorem feed_plain (learned : Learned) (pending before : Text) (cursor : ℕ) (c : Char) :
    (Accepts engine.rules.rule pending c ∧ ∃ out rest before', Settles engine.rules.rule (pending ++ [c]) out rest ∧
        (plain pending before cursor).feed engine learned (.text c) = (⟨true, out⟩, plain rest before' 0, learned)) ∨
      (¬ Accepts engine.rules.rule pending c ∧ ∃ out before', Reads engine.rules.rule pending out [] ∧
        (plain pending before cursor).feed engine learned (.text c) = (⟨false, out⟩, plain [] before' 0, learned)) := by
  have hhandle : (plain pending before cursor).handle engine learned (.text c) =
      (plain pending before cursor).text engine learned c := rfl
  have hpicked : (plain pending before cursor).picked engine c = none := by
    rw [picked, if_neg]
    rintro ⟨h, -⟩
    exact h rfl
  by_cases hc : Accepts engine.rules.rule pending c
  · refine .inl ⟨hc, ?_⟩
    obtain ⟨out, rest, hresolve, hsettles⟩ := resolve_settles hrules hplain (pending ++ [c]) before
    obtain ⟨before', hadvance⟩ := advance_plain hwords cursor hresolve
    refine ⟨out, rest, before', hsettles, ?_⟩
    have htext : (plain pending before cursor).text engine learned c =
        ({ plain rest before' 0 with committed := out }, learned, true) := by
      rw [text, hpicked]
      dsimp only
      rw [if_pos ((accepts_iff hrules hwords _ _).2 hc)]
      show (((plain (pending ++ [c]) before cursor).advance engine false).refresh engine learned, learned, true) = _
      rw [hadvance, refresh, if_neg (by rw [hwords]; exact fun h ↦ Bool.false_ne_true h.1)]
      rfl
    rw [feed, hhandle, htext]
    rfl
  · refine .inr ⟨hc, ?_⟩
    obtain ⟨out, hresolve, hreads⟩ := resolve_reads hrules hplain pending before
    obtain ⟨before', hadvance⟩ := advance_plain hwords cursor hresolve
    refine ⟨out, remember (remember before' []) [c], hreads, ?_⟩
    have htext : (plain pending before cursor).text engine learned c =
        ({ plain [] (remember before' []) 0 with committed := out }, learned, false) := by
      rw [text, hpicked]
      dsimp only
      rw [if_neg (by rw [accepts_iff hrules hwords]; exact hc), flush]
      show ((_ : Session), learned, false) = _
      have hcomposing : { plain pending before cursor with composing := none } = plain pending before cursor := rfl
      rw [hcomposing, hadvance]
      dsimp only [plain, commit]
      rw [List.append_nil]
    rw [feed, hhandle, htext]
    rfl

include hrules hplain hwords in
theorem typedFrom_typed (learned : Learned) (pending before : Text) (cursor : ℕ) (keys : Text) :
    Typed engine.rules.rule pending keys (typedFrom engine learned (plain pending before cursor) keys) := by
  induction keys generalizing pending before cursor with
  | nil =>
    obtain ⟨out, hresolve, hreads⟩ := resolve_reads hrules hplain pending before
    have hpreedit : typedFrom engine learned (plain pending before cursor) [] = out := by
      show [] ++ (resolve engine.rules pending (before ++ []) true).1 = out
      rw [List.append_nil, hresolve, List.nil_append]
    rw [hpreedit]
    exact .done hreads
  | cons c keys ih =>
    rw [typedFrom]
    rcases feed_plain hrules hplain hwords learned pending before cursor c with
      ⟨hc, out, rest, before', hsettles, hfeed⟩ | ⟨hc, out, before', hreads, hfeed⟩
    · rw [hfeed]
      dsimp only
      rw [if_pos rfl, List.append_nil]
      exact .accept hc hsettles (ih rest before' 0)
    · rw [hfeed]
      dsimp only
      rw [if_neg Bool.false_ne_true, List.append_assoc]
      exact .refuse hc hreads (ih [] before' 0)

end Session

open Session

/-- An input method with these rules and nothing else. -/
def withRules (rules : List Rule) : Method := ⟨9, true, [], rules, [], []⟩

end Keys

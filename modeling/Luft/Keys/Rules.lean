import Luft.Lib.LongestMatch
import Luft.Lib.Text
import Mathlib.Data.List.Infix

/-!
# The rules of an input method

A rule replaces keys by a text, after any text or only after some.  `Rules.new` gathers the rules by
their keys, with the keys that go on; `Rules.Sound` is what that comes to, and `First` of
`Lib.LongestMatch` is what `longest` finds where no rule looks at what comes before (`longest_first`).
-/

set_option autoImplicit false

namespace Keys

abbrev Text := List Char

local instance lawfulBEq_text : LawfulBEq Text := inferInstance

/-- A rule as it is written. -/
structure Rule where
  keys : Text
  text : Text
  after : Text

/-- What has to come before. -/
inductive After
  | anything
  | ending (text : Text)
  | oneOf (ranges : List (Char × Char)) (negated : Bool)
  deriving DecidableEq

/-- The ranges of a class, `a-z` or one character. -/
def ranges : Text → List (Char × Char)
  | low :: '-' :: high :: rest => (low, high) :: ranges rest
  | c :: rest => (c, c) :: ranges rest
  | [] => []

/-- What stands between brackets. -/
def bracketed (pattern : Text) : Option Text :=
  match pattern with
  | '[' :: rest => Text.strip_suffix ']' rest
  | _ => none

namespace After

def parse (pattern : Text) : After :=
  match bracketed pattern with
  | some ('^' :: inner) => .oneOf (ranges inner) true
  | some inner => .oneOf (ranges inner) false
  | none => if pattern = [] then .anything else .ending pattern

def allows (before : Text) : After → Bool
  | .anything => true
  | .ending text => text.isSuffixOf before
  | .oneOf ranges negated =>
    match before.getLast? with
    | none => false
    | some last => (ranges.any fun range ↦ range.1 ≤ last ∧ last ≤ range.2) != negated

end After

structure Output where
  text : Text
  after : After
  deriving DecidableEq

structure Rules where
  outputs : List (Text × List Output)
  prefixes : List Text
  longest : ℕ
  contextual : Bool

/-- The outputs of some keys are changed, or begin. -/
def entry (keys : Text) (change : List Output → List Output) : List (Text × List Output) → List (Text × List Output)
  | [] => [(keys, change [])]
  | (other, outputs) :: rest =>
    if other = keys then (other, change outputs) :: rest else (other, outputs) :: entry keys change rest

namespace Rules

/-- An output that asks for nothing before it comes last. -/
def place (output : Output) (outputs : List Output) : List Output :=
  if output.after = .anything then outputs ++ [output] else output :: outputs

def add (compiled : Rules) (rule : Rule) : Rules where
  outputs := entry rule.keys (place ⟨rule.text, .parse rule.after⟩) compiled.outputs
  prefixes := compiled.prefixes ++ (rule.keys.dropLast.inits).tail
  longest := max compiled.longest rule.keys.length
  contextual := compiled.contextual || After.parse rule.after ≠ .anything

def empty : Rules := ⟨[], [], 0, false⟩

def new (rules : List Rule) : Rules := (rules.filter fun rule ↦ rule.keys ≠ []).foldl add empty

variable (rules : Rules)

def starts (c : Char) : Bool := [c] ∈ rules.prefixes ∨ (rules.outputs.lookup [c]).isSome

def continues (keys : Text) : Bool := keys ∈ rules.prefixes ∨ (rules.outputs.lookup keys).isSome

def waits (keys : Text) : Bool := keys ∈ rules.prefixes

/-- The text that keys of this length give. -/
def ofLength (pending before : Text) (length : ℕ) : Option (ℕ × Text) :=
  ((rules.outputs.lookup (pending.take length)).bind fun outputs ↦
    outputs.find? fun output ↦ output.after.allows before).map fun output ↦ (length, output.text)

/-- The longest keys that give a text. -/
def longestMatch (pending before : Text) : Option (ℕ × Text) :=
  ((List.range' 1 (min pending.length rules.longest)).reverse).findSome? (rules.ofLength pending before)

def characters : List Char := rules.outputs.flatMap Prod.fst

/-- The text that some keys are replaced by, where no rule asks for anything before them. -/
def rule (keys : Text) : Option Text := ((rules.outputs.lookup keys).bind List.head?).map Output.text

/-! ## What is gathered -/

/-- What the gathered rules are. -/
structure Sound (rules : Rules) : Prop where
  outputs : ∀ {keys outputs}, rules.outputs.lookup keys = some outputs →
    keys ≠ [] ∧ outputs ≠ [] ∧ keys.length ≤ rules.longest ∧
      (rules.contextual = false → ∀ output ∈ outputs, output.after = .anything)
  prefixes : ∀ {keys}, keys ∈ rules.prefixes ↔
    keys ≠ [] ∧ ∃ whole, rules.outputs.lookup whole ≠ none ∧ keys <+: whole ∧ whole ≠ keys

theorem lookup_entry (keys other : Text) (change : List Output → List Output) (outputs : List (Text × List Output)) :
    (entry keys change outputs).lookup other =
      if other = keys then some (change ((outputs.lookup keys).getD [])) else outputs.lookup other := by
  induction outputs with
  | nil =>
    by_cases h : other = keys
    · simp [entry, h]
    · simp [entry, h, List.lookup_cons, beq_eq_false_iff_ne.2 h]
  | cons first outputs ih =>
    obtain ⟨name, texts⟩ := first
    rw [entry]
    by_cases hname : name = keys
    · subst hname
      by_cases h : other = name
      · simp [h]
      · simp [h, List.lookup_cons, beq_eq_false_iff_ne.2 h]
    · rw [if_neg hname, List.lookup_cons, ih]
      by_cases h : other = name
      · simp [h, hname]
      · simp [List.lookup_cons, beq_eq_false_iff_ne.2 h, beq_eq_false_iff_ne.2 (Ne.symm hname)]

theorem mem_tail_inits {keys whole : Text} :
    keys ∈ whole.dropLast.inits.tail ↔ keys ≠ [] ∧ keys <+: whole ∧ whole ≠ keys := by
  have hinits (l : Text) : keys ∈ l.inits.tail ↔ keys ≠ [] ∧ keys <+: l := by
    have hcons : l.inits = [] :: l.inits.tail := by
      cases l with
      | nil => rfl
      | cons c l => rfl
    refine ⟨fun h ↦ ⟨?_, (List.mem_inits _ _).1 (List.mem_of_mem_tail h)⟩, fun ⟨hne, h⟩ ↦ ?_⟩
    · rintro rfl
      cases l with
      | nil => cases h
      | cons c l =>
        rw [List.inits, List.tail_cons, List.mem_map] at h
        obtain ⟨_, -, h⟩ := h
        cases h
    · rw [← List.mem_inits, hcons, List.mem_cons] at h
      exact h.resolve_left hne
  rw [hinits]
  refine and_congr_right fun hne ↦ ?_
  rcases List.eq_nil_or_concat' whole with rfl | ⟨whole, c, rfl⟩
  · simp [hne]
  · rw [List.dropLast_concat, List.prefix_concat_iff]
    refine ⟨fun h ↦ ⟨.inr h, ?_⟩, fun ⟨h, hne⟩ ↦ h.resolve_left (Ne.symm hne)⟩
    rintro rfl
    have hle := h.length_le
    rw [List.length_append, List.length_singleton] at hle
    omega

theorem mem_place {output other : Output} {outputs : List Output} :
    other ∈ place output outputs ↔ other = output ∨ other ∈ outputs := by
  rw [place]
  split_ifs
  · rw [List.mem_append, List.mem_singleton, or_comm]
  · rw [List.mem_cons]

variable {rules}

theorem Sound.add (h : rules.Sound) {rule : Rule} (hkeys : rule.keys ≠ []) : (rules.add rule).Sound := by
  refine ⟨fun {keys outputs} hlookup ↦ ?_, fun {keys} ↦ ?_⟩
  · rw [Rules.add, lookup_entry] at hlookup
    split_ifs at hlookup with heq
    · subst heq
      rw [← Option.some.inj hlookup]
      refine ⟨hkeys, List.ne_nil_of_mem (mem_place.2 (.inl rfl)), Nat.le_max_right _ _, fun hplain output hmem ↦ ?_⟩
      rw [Rules.add, Bool.or_eq_false_iff, decide_eq_false_iff_not, not_not] at hplain
      rcases mem_place.1 hmem with rfl | hmem
      · exact hplain.2
      · rcases hold : rules.outputs.lookup rule.keys with _ | outputs
        · simp [hold] at hmem
        · rw [hold, Option.getD_some] at hmem
          exact (h.outputs hold).2.2.2 hplain.1 output hmem
    · obtain ⟨hne, hsome, hle, hplain⟩ := h.outputs hlookup
      refine ⟨hne, hsome, hle.trans (Nat.le_max_left _ _), fun hcontextual ↦ hplain ?_⟩
      exact (Bool.or_eq_false_iff.1 hcontextual).1
  · have hlookup (whole : Text) : (rules.add rule).outputs.lookup whole ≠ none ↔
        whole = rule.keys ∨ rules.outputs.lookup whole ≠ none := by
      rw [Rules.add, lookup_entry]
      split_ifs with heq
      · exact iff_of_true (Option.some_ne_none _) (.inl heq)
      · exact (or_iff_right heq).symm
    simp only [hlookup]
    rw [Rules.add, List.mem_append, mem_tail_inits, h.prefixes, ← and_or_left]
    refine and_congr_right fun _ ↦ ⟨?_, ?_⟩
    · rintro (⟨whole, hwhole, hlonger⟩ | hlonger)
      · exact ⟨whole, .inr hwhole, hlonger⟩
      · exact ⟨rule.keys, .inl rfl, hlonger⟩
    · rintro ⟨whole, rfl | hwhole, hlonger⟩
      · exact .inr hlonger
      · exact .inl ⟨whole, hwhole, hlonger⟩

theorem new_sound (written : List Rule) : (new written).Sound := by
  have hstart : empty.Sound :=
    ⟨fun h ↦ (by cases h), fun {keys} ↦ ⟨fun h ↦ absurd h List.not_mem_nil, fun ⟨_, _, h, _⟩ ↦ absurd rfl h⟩⟩
  have hkeys : ∀ rule ∈ written.filter (fun rule ↦ rule.keys ≠ []), rule.keys ≠ [] := fun rule hrule ↦
    of_decide_eq_true (List.mem_filter.1 hrule).2
  rw [new]
  generalize written.filter (fun rule ↦ rule.keys ≠ []) = l at hkeys ⊢
  generalize empty = rules at hstart ⊢
  induction l generalizing rules with
  | nil => exact hstart
  | cons rule l ih =>
    exact ih (fun other h ↦ hkeys other (List.mem_cons_of_mem _ h)) _ (hstart.add (hkeys rule List.mem_cons_self))

/-! ## What is found -/

theorem Sound.rule_eq_none {keys : Text} (h : rules.Sound) : rules.rule keys = none ↔ rules.outputs.lookup keys = none := by
  rcases hlookup : rules.outputs.lookup keys with _ | outputs
  · simp [rule, hlookup]
  · obtain ⟨output, rest, rfl⟩ := List.exists_cons_of_ne_nil (h.outputs hlookup).2.1
    simp [rule, hlookup]

theorem Sound.waits_iff (h : rules.Sound) {keys : Text} : rules.waits keys ↔ LongestMatch.Waits rules.rule keys := by
  rw [waits, decide_eq_true_iff, h.prefixes, LongestMatch.Waits]
  simp only [ne_eq, h.rule_eq_none]

/-- Keys that go on, or are themselves replaced. -/
theorem Sound.continues_iff (h : rules.Sound) {keys : Text} :
    rules.continues keys ↔ LongestMatch.Waits rules.rule keys ∨ rules.rule keys ≠ none := by
  rw [continues, decide_eq_true_iff, Option.isSome_iff_ne_none, ne_eq, ← h.rule_eq_none, ← h.waits_iff, waits,
    decide_eq_true_iff]

/-- Where no rule asks for anything before the keys, one length gives what its rule says. -/
theorem Sound.ofLength_eq (h : rules.Sound) (hplain : rules.contextual = false) (pending before : Text) (length : ℕ) :
    rules.ofLength pending before length = (rules.rule (pending.take length)).map fun text ↦ (length, text) := by
  rw [ofLength, rule]
  rcases hlookup : rules.outputs.lookup (pending.take length) with _ | outputs
  · rfl
  · obtain ⟨-, hne, -, hall⟩ := h.outputs hlookup
    obtain ⟨output, rest, rfl⟩ := List.exists_cons_of_ne_nil hne
    have hallows : output.after.allows before := by
      rw [hall hplain output List.mem_cons_self]
      rfl
    simp [hallows]

/-- **What is found** is the first match. -/
theorem Sound.longestMatch_first (h : rules.Sound) (hplain : rules.contextual = false) {pending : Text}
    (hpending : pending ≠ []) (before : Text) :
    ∃ length text, (rules.longestMatch pending before).getD (1, pending.take 1) = (length, text) ∧
      length ≤ pending.length ∧ LongestMatch.First rules.rule pending (pending.take length) text := by
  have hpos := List.length_pos_iff.2 hpending
  have hmem {v : Text} (hv : v <+: pending) (hrule : rules.rule v ≠ none) :
      v.length ∈ (List.range' 1 (min pending.length rules.longest)).reverse ∧ v = pending.take v.length := by
    refine ⟨?_, List.prefix_iff_eq_take.1 hv⟩
    rw [ne_eq, h.rule_eq_none] at hrule
    obtain ⟨outputs, hlookup⟩ := Option.ne_none_iff_exists'.1 hrule
    obtain ⟨hne, -, hle, -⟩ := h.outputs hlookup
    have hvpos := List.length_pos_iff.2 hne
    have hvle := hv.length_le
    rw [List.mem_reverse, List.mem_range'_1]
    omega
  rcases hfound : rules.longestMatch pending before with _ | ⟨length, text⟩
  · refine ⟨1, pending.take 1, rfl, hpos, List.take_prefix _ _, ?_, .inr ⟨?_, rfl, fun v hv hvne ↦ ?_⟩⟩
    · exact List.ne_nil_of_length_pos (by rw [List.length_take]; omega)
    · rw [List.length_take]
      omega
    · by_contra hrule
      obtain ⟨hlength, htake⟩ := hmem hv hrule
      have hnone := List.findSome?_eq_none_iff.1 hfound _ hlength
      rw [h.ofLength_eq hplain, ← htake, Option.map_eq_none_iff] at hnone
      exact hrule hnone
  · obtain ⟨longer, n, shorter, hl, hn, hlonger⟩ := List.findSome?_eq_some_iff.1 hfound
    have horder := List.pairwise_reverse.2 (List.pairwise_lt_range' (s := 1) (n := min pending.length rules.longest))
    rw [hl, List.pairwise_append, List.pairwise_cons] at horder
    have hrange : n ∈ (List.range' 1 (min pending.length rules.longest)).reverse := by
      rw [hl]
      exact List.mem_append_right _ List.mem_cons_self
    rw [List.mem_reverse, List.mem_range'_1] at hrange
    rw [h.ofLength_eq hplain, Option.map_eq_some_iff] at hn
    obtain ⟨_, hrule, heq⟩ := hn
    obtain ⟨rfl, rfl⟩ := Prod.mk.inj heq
    refine ⟨n, _, rfl, by omega, List.take_prefix _ _, ?_, .inl ⟨hrule, fun v hv hvrule ↦ ?_⟩⟩
    · exact List.ne_nil_of_length_pos (by rw [List.length_take]; omega)
    · obtain ⟨hlength, htake⟩ := hmem hv hvrule
      rw [List.length_take]
      rw [hl, List.mem_append, List.mem_cons] at hlength
      rcases hlength with hlength | hlength | hlength
      · have hnone := hlonger _ hlength
        rw [h.ofLength_eq hplain, ← htake, Option.map_eq_none_iff] at hnone
        exact absurd hnone hvrule
      · omega
      · have hlt := horder.2.1.1 _ hlength
        omega

end Rules

end Keys

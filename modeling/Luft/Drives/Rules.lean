import Luft.Drives.Filters

/-!
# The rules that say what is kept

What is kept is told to the program that syncs as a list of rules, one on each line: first what is skipped, then
what is kept, then that nothing else is.  The first rule whose pattern matches decides.

`Matching` is what the program says of patterns.  With it the rules say of each path what `keeps` says, as long as
no path that was kept or freed has a line break in it (`rendered_keeps`).
-/

set_option autoImplicit false

namespace Drives

abbrev Pattern := List Char

/-- The characters that mean something in a pattern. -/
def SPECIAL : List Char := ['*', '?', '[', ']', '{', '}', '\\']

def escape (path : Path) : Pattern := path.flatMap fun c ↦ if c ∈ SPECIAL then ['\\', c] else [c]

/-- `- ` or `+ ` with a path, and with all that is in it. -/
def both (sign : Char) (path : Path) : List (List Char) :=
  [sign :: ' ' :: '/' :: escape path, sign :: ' ' :: '/' :: escape path ++ ['/', '*', '*']]

def kept_rules (root : Path) : List (List Char) := if root = [] then [['+', ' ', '/', '*', '*']] else both '+' root

namespace Filters

def rules (filters : Filters) : List (List Char) :=
  filters.skipped.flatMap (both '-') ++ filters.kept.flatMap kept_rules ++ [['-', ' ', '*', '*']]

def render (filters : Filters) : List Char := filters.rules.flatMap (· ++ ['\n'])

end Filters

/-! ## What the rules say -/

/-- What the program says of patterns: a character stands for itself, but for the special ones; after a backslash
each stands for itself; two asterisks match anything. -/
structure Matching (matching : Pattern → List Char → Prop) : Prop where
  nil : ∀ text, matching [] text ↔ text = []
  literal : ∀ {c}, c ∉ SPECIAL → ∀ pattern text, matching (c :: pattern) text ↔ ∃ rest, text = c :: rest ∧ matching pattern rest
  escaped : ∀ c pattern text, matching ('\\' :: c :: pattern) text ↔ ∃ rest, text = c :: rest ∧ matching pattern rest
  anything : ∀ pattern text, matching ('*' :: '*' :: pattern) text ↔ ∃ before rest, text = before ++ rest ∧ matching pattern rest

/-- The lines of a text, each ended by a line break. -/
def linesOf : List Char → List (List Char)
  | [] => []
  | c :: text =>
    if c = '\n' then [] :: linesOf text
    else
      match linesOf text with
      | [] => [[c]]
      | line :: lines => (c :: line) :: lines

/-- A rule: whether it includes, and its pattern. -/
def ruleOf : List Char → Option (Bool × Pattern)
  | '+' :: ' ' :: pattern => some (true, pattern)
  | '-' :: ' ' :: pattern => some (false, pattern)
  | _ => none

/-- The first rule that matches decides. -/
def Decided (matching : Pattern → List Char → Prop) : List (Bool × Pattern) → List Char → Prop
  | [], _ => True
  | (sign, pattern) :: rules, path => (matching pattern path ∧ sign) ∨ (¬ matching pattern path ∧ Decided matching rules path)

/-- The rules of a text include a path of the drive.  With a line that is no rule there are none. -/
def Included (matching : Pattern → List Char → Prop) (text : List Char) (path : Path) : Prop :=
  ∃ rules, (linesOf text).mapM ruleOf = some rules ∧ Decided matching rules ('/' :: path)

/-! ## The rules, read -/

variable {matching : Pattern → List Char → Prop} {path : Path} {filters : Filters}

/-- A rule as it stands on its line. -/
def written (rule : Bool × Pattern) : List Char := (if rule.1 then '+' else '-') :: ' ' :: rule.2

theorem mapM_written (rules : List (Bool × Pattern)) : (rules.map written).mapM ruleOf = some rules := by
  induction rules with
  | nil => rfl
  | cons rule rules ih =>
    obtain ⟨_ | _, pattern⟩ := rule
    · simp [List.mapM_cons, ih, written, ruleOf]
    · simp [List.mapM_cons, ih, written, ruleOf]

theorem linesOf_line {line : List Char} (h : '\n' ∉ line) (text : List Char) :
    linesOf (line ++ '\n' :: text) = line :: linesOf text := by
  induction line with
  | nil => simp [linesOf]
  | cons c line ih =>
    rw [List.mem_cons, not_or] at h
    rw [List.cons_append, linesOf, if_neg (Ne.symm h.1), ih h.2]

theorem linesOf_lines {lines : List (List Char)} (h : ∀ line ∈ lines, '\n' ∉ line) :
    linesOf (lines.flatMap (· ++ ['\n'])) = lines := by
  induction lines with
  | nil => rfl
  | cons line lines ih =>
    rw [List.forall_mem_cons] at h
    rw [List.flatMap_cons, List.append_assoc, List.singleton_append, linesOf_line h.1, ih h.2]

/-- The patterns of a path and of all that is in it. -/
def patterns (path : Path) : List Pattern := ['/' :: escape path, '/' :: escape path ++ ['/', '*', '*']]

/-- The patterns of a kept folder. -/
def root_patterns (root : Path) : List Pattern := if root = [] then [['/', '*', '*']] else patterns root

/-- The rules with their patterns. -/
def Filters.told (filters : Filters) : List (Bool × Pattern) :=
  (filters.skipped.flatMap patterns).map (Prod.mk false) ++ ((filters.kept.flatMap root_patterns).map (Prod.mk true) ++
    [(false, ['*', '*'])])

theorem rules_eq (filters : Filters) : filters.rules = filters.told.map written := by
  have hboth (sign : Bool) (path : Path) :
      both (if sign then '+' else '-') path = ((patterns path).map (Prod.mk sign)).map written := by
    simp [both, patterns, written]
  have hroot (root : Path) : kept_rules root = ((root_patterns root).map (Prod.mk true)).map written := by
    by_cases h : root = []
    · simp [kept_rules, root_patterns, h, written]
    · simpa [kept_rules, root_patterns, h] using hboth true root
  simp only [Filters.told, List.map_append, List.map_flatMap, ← hroot]
  simp [Filters.rules, ← hboth false, written]

theorem newline_escape (h : '\n' ∉ path) : '\n' ∉ escape path := by
  intro hmem
  obtain ⟨c, hc, hmem⟩ := List.mem_flatMap.1 hmem
  split_ifs at hmem
  · rcases List.mem_pair.1 hmem with heq | rfl
    · exact absurd heq (by decide)
    · exact h hc
  · obtain rfl := List.mem_singleton.1 hmem
    exact h hc

theorem newline_both {sign : Char} (hsign : sign ≠ '\n') (h : '\n' ∉ path) : ∀ line ∈ both sign path, '\n' ∉ line := by
  intro line hline
  have hescape := newline_escape h
  rcases List.mem_pair.1 hline with rfl | rfl
  · simp [hescape, Ne.symm hsign]
  · simp [hescape, Ne.symm hsign]

theorem newline_rules (hkept : ∀ root ∈ filters.kept, '\n' ∉ root) (hskipped : ∀ skip ∈ filters.skipped, '\n' ∉ skip) :
    ∀ line ∈ filters.rules, '\n' ∉ line := by
  intro line hline
  simp only [Filters.rules, List.mem_append, List.mem_flatMap, List.mem_singleton] at hline
  rcases hline with (⟨skip, hskip, hline⟩ | ⟨root, hroot, hline⟩) | rfl
  · exact newline_both (by decide) (hskipped skip hskip) line hline
  · rw [kept_rules] at hline
    split_ifs at hline
    · rw [List.mem_singleton.1 hline]
      decide
    · exact newline_both (by decide) (hkept root hroot) line hline
  · decide

/-! ## The rules, applied -/

namespace Matching

theorem escape_append (h : Matching matching) (path : Path) (pattern : Pattern) (text : List Char) :
    matching (escape path ++ pattern) text ↔ ∃ rest, text = path ++ rest ∧ matching pattern rest := by
  induction path generalizing text with
  | nil => simp [escape]
  | cons c path ih =>
    have hc (text : List Char) : matching (escape (c :: path) ++ pattern) text ↔
        ∃ rest, text = c :: rest ∧ matching (escape path ++ pattern) rest := by
      by_cases hspecial : c ∈ SPECIAL
      · simpa [escape, hspecial] using h.escaped c (escape path ++ pattern) text
      · simpa [escape, hspecial] using h.literal hspecial (escape path ++ pattern) text
    rw [hc]
    constructor
    · rintro ⟨rest, rfl, hrest⟩
      obtain ⟨rest, rfl, hpattern⟩ := (ih rest).1 hrest
      exact ⟨rest, rfl, hpattern⟩
    · rintro ⟨rest, rfl, hpattern⟩
      exact ⟨path ++ rest, rfl, (ih _).2 ⟨rest, rfl, hpattern⟩⟩

theorem slash (h : Matching matching) (pattern : Pattern) (text : List Char) :
    matching ('/' :: pattern) text ↔ ∃ rest, text = '/' :: rest ∧ matching pattern rest :=
  h.literal (by decide) pattern text

theorem all (h : Matching matching) (text : List Char) : matching ['*', '*'] text :=
  (h.anything [] text).2 ⟨text, [], (List.append_nil text).symm, (h.nil []).2 rfl⟩

theorem patterns_iff (h : Matching matching) {parent : Path} (hne : parent ≠ []) :
    (∃ pattern ∈ patterns parent, matching pattern ('/' :: path)) ↔ covers parent path := by
  have hself : matching ('/' :: escape parent) ('/' :: path) ↔ path = parent := by
    have hescape : matching (escape parent) path ↔ path = parent := by simpa [h.nil] using h.escape_append parent [] path
    simp [h.slash, hescape]
  have hunder : matching ('/' :: escape parent ++ ['/', '*', '*']) ('/' :: path) ↔ ∃ rest, path = parent ++ '/' :: rest := by
    rw [List.cons_append, h.slash]
    simp [h.escape_append, h.slash, h.all]
  rw [covers_iff, or_iff_right hne, ← hself, ← hunder]
  simp [patterns]

theorem root_patterns_iff (h : Matching matching) (root : Path) :
    (∃ pattern ∈ root_patterns root, matching pattern ('/' :: path)) ↔ covers root path := by
  by_cases hroot : root = []
  · have hall : matching ['/', '*', '*'] ('/' :: path) := (h.slash _ _).2 ⟨path, rfl, h.all path⟩
    simp [root_patterns, hroot, hall]
  · rw [root_patterns, if_neg hroot]
    exact h.patterns_iff hroot

end Matching

theorem decided_append {sign : Bool} {group : List Pattern} {rules : List (Bool × Pattern)} {text : List Char} :
    Decided matching (group.map (Prod.mk sign) ++ rules) text ↔
      (∃ pattern ∈ group, matching pattern text) ∧ sign ∨
      (∀ pattern ∈ group, ¬ matching pattern text) ∧ Decided matching rules text := by
  induction group with
  | nil => simp
  | cons pattern group ih =>
    rw [List.map_cons, List.cons_append, Decided, ih, List.forall_mem_cons]
    by_cases hpattern : matching pattern text
    · simp [hpattern]
    · simp [hpattern]

/-- **The rules say what is kept**, where no path has a line break in it. -/
theorem included_iff (hmatching : Matching matching) (hkept : ∀ root ∈ filters.kept, '\n' ∉ root)
    (hskipped : ∀ skip ∈ filters.skipped, '\n' ∉ skip) (hne : ∀ skip ∈ filters.skipped, skip ≠ []) (path : Path) :
    Included matching filters.render path ↔ filters.keeps path := by
  have hskips : (∃ pattern ∈ filters.skipped.flatMap patterns, matching pattern ('/' :: path)) ↔
      ∃ skip ∈ filters.skipped, covers skip path := by
    simp only [List.mem_flatMap]
    constructor
    · rintro ⟨pattern, ⟨skip, hskip, hpattern⟩, hmatch⟩
      exact ⟨skip, hskip, (hmatching.patterns_iff (hne skip hskip)).1 ⟨pattern, hpattern, hmatch⟩⟩
    · rintro ⟨skip, hskip, hcovers⟩
      obtain ⟨pattern, hpattern, hmatch⟩ := (hmatching.patterns_iff (hne skip hskip)).2 hcovers
      exact ⟨pattern, ⟨skip, hskip, hpattern⟩, hmatch⟩
  have hroots : (∃ pattern ∈ filters.kept.flatMap root_patterns, matching pattern ('/' :: path)) ↔
      ∃ root ∈ filters.kept, covers root path := by
    simp only [List.mem_flatMap, ← hmatching.root_patterns_iff]
    constructor
    · rintro ⟨pattern, ⟨root, hroot, hpattern⟩, hmatch⟩
      exact ⟨root, hroot, pattern, hpattern, hmatch⟩
    · rintro ⟨root, hroot, pattern, hpattern, hmatch⟩
      exact ⟨pattern, ⟨root, hroot, hpattern⟩, hmatch⟩
  have hread : (linesOf filters.render).mapM ruleOf = some filters.told := by
    rw [Filters.render, linesOf_lines (newline_rules hkept hskipped), rules_eq, mapM_written]
  have hlast : ¬ Decided matching [(false, ['*', '*'])] ('/' :: path) := by simp [Decided, hmatching.all]
  have hnone : (∀ pattern ∈ filters.skipped.flatMap patterns, ¬ matching pattern ('/' :: path)) ↔
      ∀ skip ∈ filters.skipped, ¬ covers skip path := by
    have hnot := not_congr hskips
    push Not at hnot
    exact hnot
  rw [Included, hread, Filters.keeps_iff, and_comm]
  simp only [Option.some.injEq, exists_eq_left', Filters.told, decided_append, hskips, hroots, hnone, hlast]
  simp

/-- What makes the rules say what is kept. -/
structure Told (filters : Filters) : Prop where
  sound : filters.Sound
  kept : ∀ root ∈ filters.kept, '\n' ∉ root
  skipped : ∀ skip ∈ filters.skipped, '\n' ∉ skip

theorem Told.step (h : Told filters) (change : Filters.Change) (htarget : '\n' ∉ change.target) :
    Told (change.step filters) := by
  refine ⟨h.sound.step change, fun root hroot ↦ ?_, fun skip hskip ↦ ?_⟩
  · cases change with
    | add path =>
      by_cases hkeeps : filters.keeps path
      · exact h.kept root (Filters.add_of_keeps hkeeps ▸ hroot)
      · have hmem := (Filters.mem_kept_add hkeeps).1 hroot
        split_ifs at hmem
        · exact h.kept root hmem
        · rcases hmem with ⟨hmem, -⟩ | rfl
          · exact h.kept root hmem
          · exact htarget
    | remove path => exact h.kept root (Filters.mem_kept_remove.1 hroot).1
  · cases change with
    | add path =>
      by_cases hkeeps : filters.keeps path
      · exact h.skipped skip (Filters.add_of_keeps hkeeps ▸ hskip)
      · exact h.skipped skip ((Filters.mem_skipped_add hkeeps).1 hskip).1
    | remove path =>
      rcases Filters.mem_skipped_remove.1 hskip with ⟨hmem, -⟩ | ⟨rfl, -⟩
      · exact h.skipped skip hmem
      · exact htarget

theorem told_empty : Told Filters.empty :=
  ⟨Filters.sound_empty, fun _ h ↦ absurd h List.not_mem_nil, fun _ h ↦ absurd h List.not_mem_nil⟩

/-- **After any changes** the rules say what is kept, as long as no path has a line break in it. -/
theorem rendered_keeps (hmatching : Matching matching) (changes : List Filters.Change)
    (h : ∀ change ∈ changes, '\n' ∉ change.target) :
    Runs.Throughout Filters.Change.step (fun filters ↦ ∀ path, Included matching filters.render path ↔ filters.keeps path)
      changes Filters.empty := by
  have htold := told_empty
  generalize Filters.empty = filters at htold
  have hrules {filters : Filters} (ht : Told filters) (path : Path) :
      Included matching filters.render path ↔ filters.keeps path :=
    included_iff hmatching ht.kept ht.skipped (fun _ ↦ ht.sound.ne_nil) path
  induction changes generalizing filters with
  | nil => exact hrules htold
  | cons change changes ih =>
    rw [List.forall_mem_cons] at h
    exact ⟨hrules htold, ih h.2 _ (htold.step change h.1)⟩

/-- Patterns with no sets in them. -/
def globs : Pattern → List Char → Bool
  | [], text => text = []
  | '\\' :: c :: pattern, text => text.head? = some c && globs pattern text.tail
  | '*' :: '*' :: pattern, text => text.tails.any (globs pattern)
  | '?' :: pattern, text => !text.isEmpty && globs pattern text.tail
  | c :: pattern, text => text.head? = some c && globs pattern text.tail

theorem head_tail {c : Char} {text : List Char} {found : List Char → Bool} :
    (text.head? = some c && found text.tail) = true ↔ ∃ rest, text = c :: rest ∧ found rest := by
  cases text with
  | nil => simp
  | cons d text =>
    rw [List.head?_cons, List.tail_cons, Bool.and_eq_true, decide_eq_true_eq]
    constructor
    · rintro ⟨heq, htext⟩
      exact ⟨text, congrArg (· :: text) (Option.some.inj heq), htext⟩
    · rintro ⟨rest, heq, hrest⟩
      obtain ⟨rfl, rfl⟩ := List.cons.inj heq
      exact ⟨rfl, hrest⟩

theorem matching_globs : Matching fun pattern text ↦ globs pattern text := by
  refine ⟨fun text ↦ by simp [globs], fun {c} hc pattern text ↦ ?_, fun c pattern text ↦ ?_, fun pattern text ↦ ?_⟩
  · simp only [SPECIAL, List.mem_cons, not_or] at hc
    rw [globs]
    · exact head_tail
    · rintro d rest rfl
      exact absurd rfl hc.2.2.2.2.2.2.1
    · rintro rest rfl
      exact absurd rfl hc.1
    · rintro rfl
      exact absurd rfl hc.2.1
  · rw [globs]
    exact head_tail
  · rw [globs, List.any_eq_true]
    simp only [List.mem_tails]
    constructor
    · rintro ⟨rest, ⟨before, rfl⟩, hrest⟩
      exact ⟨before, rest, rfl, hrest⟩
    · rintro ⟨before, rest, rfl, hrest⟩
      exact ⟨rest, ⟨before, rfl⟩, hrest⟩

/-- A folder kept but for one file, whose name has brackets in it. -/
theorem rendered_keeps_photos : Runs.Throughout Filters.Change.step
    (fun filters ↦ ∀ path, Included (fun pattern text ↦ globs pattern text) filters.render path ↔ filters.keeps path)
    [.add ['P', '[', '4', ']'], .remove ['P', '[', '4', ']', '/', 'r']] Filters.empty :=
  rendered_keeps matching_globs [.add ['P', '[', '4', ']'], .remove ['P', '[', '4', ']', '/', 'r']] (by decide)

/-- A line break in a path that is kept writes a rule for a path that is not. -/
theorem line_break : ¬ ∀ changes, Runs.Throughout Filters.Change.step
    (fun filters ↦ ∀ path, Included (fun pattern text ↦ globs pattern text) filters.render path ↔ filters.keeps path)
    changes Filters.empty := by
  intro h
  have hpath := (h [.add ['a', '\n', '+', ' ', '/', 'b']]).2 ['a']
  have hkept := hpath.1 ⟨[(true, ['/', 'a']), (true, ['/', 'b']), (true, ['/', 'a']), (true, ['/', 'b', '/', '*', '*']),
    (false, ['*', '*'])], by decide, .inl ⟨by decide, rfl⟩⟩
  revert hkept
  decide

end Drives

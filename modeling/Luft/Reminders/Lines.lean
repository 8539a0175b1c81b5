import Mathlib.Data.List.DropRight

/-!
# The lines of a calendar file

Lines end with a carriage return and a line feed, and a long one is folded into pieces of at most 74
bytes, all but the first with a space in front.  Folding and unfolding undo each other
(`unfolded_join`), and so do the two ways of escaping a text (`unescaped_escaped`).

Texts are lists of characters.
-/

set_option autoImplicit false

namespace Reminders

def LONGEST_LINE : ℕ := 74

structure Property where
  name : List Char
  /-- In the order they are written in; a value may be missing. -/
  params : List (List Char × Option (List Char))
  value : List Char
  deriving DecidableEq, Repr

/-! ## Text -/

/-- A character in upper case, as far as that is written in ASCII letters. -/
def upper (c : Char) : List Char :=
  if c = 'ß' then ['S', 'S']
  else if c = 'ı' then ['I']
  else if c = 'ſ' then ['S']
  else if c = 'ﬀ' then ['F', 'F']
  else if c = 'ﬁ' then ['F', 'I']
  else if c = 'ﬂ' then ['F', 'L']
  else if c = 'ﬃ' then ['F', 'F', 'I']
  else if c = 'ﬄ' then ['F', 'F', 'L']
  else if c = 'ﬅ' ∨ c = 'ﬆ' then ['S', 'T']
  else [c.toUpper]

def toUpperCase (text : List Char) : List Char := text.flatMap upper

def isSpace (c : Char) : Bool :=
  (0x9 ≤ c.toNat && c.toNat ≤ 0xd) || (0x2000 ≤ c.toNat && c.toNat ≤ 0x200a) ||
    [0x20, 0xa0, 0x1680, 0x2028, 0x2029, 0x202f, 0x205f, 0x3000, 0xfeff].contains c.toNat

def trim (text : List Char) : List Char := (text.dropWhile isSpace).rdropWhile isSpace

def join (separator : List Char) (texts : List (List Char)) : List Char :=
  separator.intercalate texts

def crlf : List Char := ['\r', '\n']

/-- A text split at line feeds, with or without a carriage return in front; the first line already
began. -/
def linesFrom (line : List Char) : List Char → List (List Char)
  | [] => [line]
  | '\r' :: '\n' :: rest => line :: linesFrom [] rest
  | '\n' :: rest => line :: linesFrom [] rest
  | c :: rest => linesFrom (line ++ [c]) rest

/-! ## Folding, escaping, properties -/

/-- The lines read so far with one more, which may continue the last. -/
def unfoldLine (lines : List (List Char)) (line : List Char) : List (List Char) :=
  match line, lines.getLast? with
  | ' ' :: rest, some last => lines.dropLast ++ [last ++ rest]
  | '\t' :: rest, some last => lines.dropLast ++ [last ++ rest]
  | [], _ => lines
  | line, _ => lines ++ [line]

/-- The lines of a calendar file with folded ones put back together. -/
def unfolded (text : List Char) : List (List Char) := (linesFrom [] text).foldl unfoldLine []

def param (text : List Char) : List Char × Option (List Char) :=
  match text.splitOn '=' with
  | key :: value :: _ => (toUpperCase key, some value)
  | key :: [] => (toUpperCase key, none)
  | [] => ([], none)

/-- A property with what stands before the colon. -/
def headed (head value : List Char) : Property where
  name := toUpperCase ((head.splitOn ';').headD [])
  params := (head.splitOn ';').tail.map param
  value := value

/-- A line without a colon loses its last character and is its own value. -/
def property (line : List Char) : Property :=
  match line.dropWhile (· ≠ ':') with
  | [] => headed line.dropLast line
  | _ :: value => headed (line.takeWhile (· ≠ ':')) value

def unescaped : List Char → List Char
  | '\\' :: c :: rest =>
    if c = 'n' ∨ c = 'N' then '\n' :: unescaped rest
    else if c = ',' ∨ c = ';' ∨ c = '\\' then c :: unescaped rest
    else '\\' :: unescaped (c :: rest)
  | c :: rest => c :: unescaped rest
  | [] => []

/-- Semicolons stay as they are. -/
def escapedChar (c : Char) : List Char :=
  if c = '\\' then ['\\', '\\']
  else if c = ',' then ['\\', ',']
  else if c = '\n' then ['\\', 'n']
  else [c]

def escaped (value : List Char) : List Char := value.flatMap escapedChar

/-- The rest of a folded line, after a piece of that many bytes. -/
def foldedFrom (piece : List Char) (size : ℕ) : List Char → List (List Char)
  | [] => [piece]
  | c :: rest =>
    if size + c.utf8Size > LONGEST_LINE then
      piece :: foldedFrom [' ', c] (1 + c.utf8Size) rest
    else foldedFrom (piece ++ [c]) (size + c.utf8Size) rest

/-- The pieces of a line the way the format asks, without cutting a character in two. -/
def pieces (line : List Char) : List (List Char) := foldedFrom [] 0 line

def folded (line : List Char) : List Char := join crlf (pieces line)

/-! ## Reading what was written -/

theorem unescaped_cons {c : Char} (h : c ≠ '\\') (rest : List Char) :
    unescaped (c :: rest) = c :: unescaped rest := by
  cases rest with
  | nil => rw [unescaped]; intro _ _ heq; exact (h heq).elim
  | cons d rest => rw [unescaped]; intro _ _ heq; exact (h heq).elim

/-- **Escaping is undone.** -/
theorem unescaped_escaped (value : List Char) : unescaped (escaped value) = value := by
  induction value with
  | nil => rfl
  | cons c value ih =>
    rw [escaped, List.flatMap_cons, ← escaped, escapedChar]
    split_ifs with hbackslash hcomma hnewline
    · rw [hbackslash, List.cons_append, List.cons_append, List.nil_append, unescaped, if_neg (by decide),
        if_pos (by decide), ih]
    · rw [hcomma, List.cons_append, List.cons_append, List.nil_append, unescaped, if_neg (by decide),
        if_pos (by decide), ih]
    · rw [hnewline, List.cons_append, List.cons_append, List.nil_append, unescaped, if_pos (by decide),
        ih]
    · rw [List.singleton_append, unescaped_cons hbackslash, ih]

theorem newline_notMem_escaped (value : List Char) : '\n' ∉ escaped value := by
  intro h
  obtain ⟨c, -, hc⟩ := List.mem_flatMap.1 h
  rw [escapedChar] at hc
  split_ifs at hc with hbackslash hcomma hnewline
  · exact absurd hc (by decide)
  · exact absurd hc (by decide)
  · exact absurd hc (by decide)
  · exact hnewline (List.mem_singleton.1 hc).symm

/-- A piece and what ends it. -/
theorem linesFrom_append {piece : List Char} (h : '\n' ∉ piece) (line rest : List Char) :
    linesFrom line (piece ++ crlf ++ rest) = (line ++ piece) :: linesFrom [] rest := by
  induction piece generalizing line with
  | nil => rw [List.nil_append, List.append_nil, crlf, List.cons_append, List.cons_append,
      List.nil_append, linesFrom]
  | cons c piece ih =>
    have hc : c ≠ '\n' := fun heq ↦ h (heq ▸ List.mem_cons_self)
    have hpiece : '\n' ∉ piece := fun hmem ↦ h (List.mem_cons_of_mem c hmem)
    rw [List.cons_append, List.cons_append, linesFrom, ih hpiece, List.append_assoc,
      List.singleton_append]
    · rintro rest' rfl heq
      cases piece with
      | nil => exact absurd (List.cons.inj heq).1 (by decide)
      | cons d piece => exact hpiece ((List.cons.inj heq).1 ▸ List.mem_cons_self)
    · exact hc

theorem linesFrom_flatten {pieces : List (List Char)} (h : ∀ piece ∈ pieces, '\n' ∉ piece) :
    linesFrom [] (pieces.map (· ++ crlf)).flatten = pieces ++ [[]] := by
  induction pieces with
  | nil => rfl
  | cons piece pieces ih =>
    rw [List.map_cons, List.flatten_cons, linesFrom_append (h piece List.mem_cons_self),
      ih fun other hother ↦ h other (List.mem_cons_of_mem piece hother), List.nil_append,
      List.cons_append]

theorem newline_notMem_foldedFrom {piece rest : List Char} {size : ℕ} (hpiece : '\n' ∉ piece)
    (hrest : '\n' ∉ rest) : ∀ p ∈ foldedFrom piece size rest, '\n' ∉ p := by
  induction rest generalizing piece size with
  | nil =>
    intro p hp
    rwa [List.mem_singleton.1 hp]
  | cons c rest ih =>
    have hc : '\n' ≠ c := fun heq ↦ hrest (heq ▸ List.mem_cons_self)
    have hrest' : '\n' ∉ rest := fun hmem ↦ hrest (List.mem_cons_of_mem c hmem)
    rw [foldedFrom]
    split_ifs
    · have hbegun : '\n' ∉ [' ', c] := by
        rw [List.mem_cons, List.mem_singleton, not_or]
        exact ⟨by decide, hc⟩
      intro p hp
      rcases List.mem_cons.1 hp with rfl | hp
      · exact hpiece
      · exact ih hbegun hrest' p hp
    · refine ih (fun hmem ↦ ?_) hrest'
      rcases List.mem_append.1 hmem with hmem | hmem
      · exact hpiece hmem
      · exact hc (List.mem_singleton.1 hmem)

theorem unfoldLine_continue (lines : List (List Char)) (last rest : List Char) :
    unfoldLine (lines ++ [last]) (' ' :: rest) = lines ++ [last ++ rest] := by
  rw [unfoldLine.eq_def]
  simp only [List.getLast?_concat, List.dropLast_concat]

/-- A line that begins a new one. -/
def Begins (line : List Char) : Prop := ∃ c rest, line = c :: rest ∧ c ≠ ' ' ∧ c ≠ '\t'

theorem unfoldLine_begins (lines : List (List Char)) {line : List Char} (h : Begins line) :
    unfoldLine lines line = lines ++ [line] := by
  obtain ⟨c, rest, rfl, hspace, htab⟩ := h
  rw [unfoldLine.eq_def]
  split
  · rename_i heq _
    exact absurd (List.cons.inj heq).1 hspace
  · rename_i heq _
    exact absurd (List.cons.inj heq).1 htab
  · rename_i heq
    exact absurd heq (List.cons_ne_nil c rest)
  · rfl

/-- The pieces of what is left of a line continue it. -/
theorem foldl_foldedFrom (rest : List Char) (lines : List (List Char)) (last piece : List Char)
    (size : ℕ) : (foldedFrom (' ' :: piece) size rest).foldl unfoldLine (lines ++ [last]) =
      lines ++ [last ++ piece ++ rest] := by
  induction rest generalizing last piece size with
  | nil =>
    rw [foldedFrom, List.foldl_cons, List.foldl_nil, unfoldLine_continue, List.append_nil]
  | cons c rest ih =>
    rw [foldedFrom]
    split_ifs
    · rw [List.foldl_cons, unfoldLine_continue, ih, List.append_assoc _ [c], List.singleton_append]
    · rw [List.cons_append, ih, ← List.append_assoc last, List.append_assoc _ [c],
        List.singleton_append]

/-- The pieces of a line put together again, after the first began. -/
theorem foldl_foldedFrom_begins (rest : List Char) (lines : List (List Char)) {piece : List Char}
    (h : Begins piece) (size : ℕ) :
    (foldedFrom piece size rest).foldl unfoldLine lines = lines ++ [piece ++ rest] := by
  induction rest generalizing piece size with
  | nil => rw [foldedFrom, List.foldl_cons, List.foldl_nil, unfoldLine_begins _ h, List.append_nil]
  | cons c rest ih =>
    rw [foldedFrom]
    split_ifs
    · rw [List.foldl_cons, unfoldLine_begins _ h, foldl_foldedFrom, List.append_assoc _ [c],
        List.singleton_append]
    · have hbegins : Begins (piece ++ [c]) := by
        obtain ⟨d, piece, rfl, hd⟩ := h
        exact ⟨d, piece ++ [c], rfl, hd⟩
      rw [ih hbegins, List.append_assoc, List.singleton_append]

theorem foldl_pieces (lines : List (List Char)) {line : List Char} (h : Begins line) :
    (pieces line).foldl unfoldLine lines = lines ++ [line] := by
  obtain ⟨c, rest, rfl, hc⟩ := h
  have hsmall : ¬ 0 + c.utf8Size > LONGEST_LINE := by
    have := c.utf8Size_le_four
    rw [LONGEST_LINE]
    omega
  rw [pieces, foldedFrom, if_neg hsmall, List.nil_append,
    foldl_foldedFrom_begins rest lines ⟨c, [], rfl, hc⟩, List.singleton_append]

theorem join_concat {texts : List (List Char)} (hne : texts ≠ []) :
    join crlf texts ++ crlf = (texts.map (· ++ crlf)).flatten := by
  induction texts with
  | nil => exact absurd rfl hne
  | cons text texts ih =>
    cases texts with
    | nil => rw [join, List.intercalate_singleton, List.map_singleton, List.flatten_singleton]
    | cons other texts =>
      rw [List.map_cons, List.flatten_cons, ← ih (List.cons_ne_nil _ _), join,
        List.intercalate_cons_cons, ← join]
      simp only [List.append_assoc]

theorem foldedFrom_ne_nil (piece : List Char) (size : ℕ) (rest : List Char) :
    foldedFrom piece size rest ≠ [] := by
  induction rest generalizing piece size with
  | nil => exact List.cons_ne_nil _ _
  | cons c rest ih =>
    rw [foldedFrom]
    split_ifs
    · exact List.cons_ne_nil _ _
    · exact ih _ _

/-- The text of some lines is that of all their pieces. -/
theorem join_folded {lines : List (List Char)} (hne : lines ≠ []) :
    join crlf (lines.map folded) ++ crlf = ((lines.flatMap pieces).map (· ++ crlf)).flatten := by
  rw [join_concat (mt List.map_eq_nil_iff.1 hne)]
  clear hne
  induction lines with
  | nil => rfl
  | cons line lines ih =>
    rw [List.map_cons, List.map_cons, List.flatten_cons, ih, List.flatMap_cons, List.map_append,
      List.flatten_append, folded, pieces, join_concat (foldedFrom_ne_nil [] 0 line)]

theorem foldl_flatMap_pieces (begun : List (List Char)) {lines : List (List Char)}
    (h : ∀ line ∈ lines, Begins line) :
    (lines.flatMap pieces).foldl unfoldLine begun = begun ++ lines := by
  induction lines generalizing begun with
  | nil => exact (List.append_nil begun).symm
  | cons line lines ih =>
    rw [List.flatMap_cons, List.foldl_append, foldl_pieces begun (h line List.mem_cons_self),
      ih _ fun other hother ↦ h other (List.mem_cons_of_mem line hother), List.append_assoc,
      List.singleton_append]

/-- **Folding is undone**: the lines of a file that was put together from lines. -/
theorem unfolded_join {lines : List (List Char)} (hne : lines ≠ [])
    (h : ∀ line ∈ lines, Begins line ∧ '\n' ∉ line) :
    unfolded (join crlf (lines.map folded) ++ crlf) = lines := by
  have hpieces : ∀ piece ∈ lines.flatMap pieces, '\n' ∉ piece := by
    intro piece hpiece
    obtain ⟨line, hline, hpiece⟩ := List.mem_flatMap.1 hpiece
    exact newline_notMem_foldedFrom List.not_mem_nil (h line hline).2 piece hpiece
  rw [unfolded, join_folded hne, linesFrom_flatten hpieces, List.foldl_append,
    foldl_flatMap_pieces [] fun line hline ↦ (h line hline).1]
  rfl

theorem property_eq {head : List Char} (h : ':' ∉ head) (value : List Char) :
    property (head ++ ':' :: value) = headed head value := by
  have hbefore : ∀ c ∈ head, decide (c ≠ ':') = true :=
    fun c hc ↦ decide_eq_true fun heq ↦ h (heq ▸ hc)
  have hdrop : (':' :: value).dropWhile (· ≠ ':') = ':' :: value :=
    List.dropWhile_cons_of_neg (by decide)
  have htake : (':' :: value).takeWhile (· ≠ ':') = [] :=
    List.takeWhile_cons_of_neg (by decide)
  rw [property, List.dropWhile_append_of_pos hbefore, hdrop,
    List.takeWhile_append_of_pos hbefore, htake, List.append_nil]

end Reminders

import Luft.Lib.Align

/-!
# Planning a move of Luft's partition

The planner of `disk/layout/plan.rs`: from where Luft's partitions and the free space next to them
lie (`Layout`) and what is asked (`Change`) to the steps that change the partition table.

Sizes and offsets are natural numbers.  The planner's sums stay below 2⁶⁴ on a drive; the one
difference that could go below zero, `end - target` in `Move::steps`, wraps around as the code's
does.
-/

set_option autoImplicit false

namespace Mover

def mib : ℕ := 2 ^ 20

def gib : ℕ := 2 ^ 30

/-- A stretch of the drive. -/
structure Span where
  offset : ℕ
  size : ℕ
deriving DecidableEq, Repr

def Span.fin (span : Span) : ℕ := span.offset + span.size

/-- Where Luft lies on its drive. -/
structure Layout where
  root : Span
  rootUuid : String
  luksUuid : Option String
  startup : Option (Span × String)
  freeBefore : Option Span
  freeAfter : Option Span
  allocated : ℕ

inductive Change
  | grow
  | shrink (bytes : ℕ)
  | trim (bytes : ℕ)
deriving DecidableEq, Repr

/-- A folder that another system left behind, taken away by its name. -/
structure Folder where
  esp : String
  loader : String
  filesystem : String
deriving DecidableEq, Repr

inductive Step
  | copyStartup (src dst : Span)
  | shrink (offset size : ℕ)
  | create (offset size : ℕ)
  | seal (offset : ℕ)
  | join (offset : ℕ)
  | hand (src dst : ℕ)
  | leave (offset : ℕ)
  | retire (offset : ℕ)
  | delete (offset : ℕ)
  | grow (offset fin : ℕ)
  | rename (offset : ℕ) (uuid : String)
  | settle (offset : ℕ) (uuid : String)
  | discard (offset : ℕ) (uuid : String)
  | forgetStartEntry (number : ℕ)
  | removeFolder (folder : Folder)
deriving DecidableEq, Repr

def alignUp (bytes : ℕ) : ℕ := Align.up mib bytes

def alignDown (bytes : ℕ) : ℕ := Align.down mib bytes

/-- The room Luft's files need, with some to spare. -/
def needed (allocated : ℕ) : ℕ := alignUp (allocated + allocated / 10 + gib)

/-- The difference of two 64-bit numbers as the machine takes it. -/
def wrappingSub (a b : ℕ) : ℕ := (a + 2 ^ 64 - b) % 2 ^ 64

/-- A move of the root partition so that it starts at `target`. -/
structure Move where
  root : Span
  target : ℕ
  fin : ℕ
  need : ℕ
  sealed : Bool

/-- The steps that take Luft's files from the partition at `src` into a new one. -/
def Move.into (m : Move) (src dst size : ℕ) : List Step :=
  [.create dst size] ++ (if m.sealed then [.seal dst] else []) ++
    [.join dst, .hand src dst, .leave src] ++
    (if m.sealed then [.retire src] else []) ++ [.delete src]

def Move.direct (m : Move) : Bool :=
  if m.target < m.root.offset then decide (m.need ≤ m.root.offset - m.target)
  else decide (m.need ≤ m.target - m.root.offset)

def Move.landsAtTheEnd (m : Move) : Bool := m.direct && decide (m.root.offset < m.target)

/-- What Luft keeps of its partition while the middle one takes the files in. -/
def Move.kept (m : Move) : ℕ := alignUp (m.need + (m.target - m.root.offset))

def Move.middle (m : Move) : ℕ := m.root.offset + m.kept

/-- The steps that bring the root partition to its new place, before it takes the space behind. -/
def Move.hops (m : Move) : Except String (List Step) :=
  let start := m.root.offset
  let fin := m.root.fin
  if m.direct && decide (m.target < start) then .ok (m.into start m.target (start - m.target))
  else if m.landsAtTheEnd then
    .ok (.shrink start (m.target - start) :: m.into start m.target (fin - m.target))
  else if fin - m.middle < m.need then
    .error "Luft is too full to move into this little space. Make some room in Luft first"
  else
    .ok (.shrink start m.kept :: (m.into start m.middle (fin - m.middle) ++
      m.into m.middle m.target (m.middle - m.target)))

/-- The step with which the root partition takes the space behind it. -/
def Move.stretch (m : Move) : List Step :=
  if !m.landsAtTheEnd || decide (m.root.fin < m.fin) then [.grow m.target m.fin] else []

def Move.steps (m : Move) : Except String (List Step) :=
  if wrappingSub m.root.fin m.target < m.need then
    .error "Luft wouldn't have room for its files"
  else m.hops.map fun hops ↦ hops ++ m.stretch

def moveStartup (startup : Span × String) (dst : ℕ) : List Step :=
  [.copyStartup startup.1 ⟨dst, startup.1.size⟩, .delete startup.1.offset, .rename dst startup.2]

/-- The changes that leave the root partition where it starts. -/
def inPlace (layout : Layout) (change : Change) (need : ℕ) : Option (Except String (List Step)) :=
  match change with
  | .grow =>
    match layout.freeBefore, layout.freeAfter with
    | some _, _ => none
    | none, some free => some (.ok [.grow layout.root.offset free.fin])
    | none, none => some (.error "There's no free space next to Luft")
  | .trim bytes => some <|
    if bytes ≤ layout.root.size ∧ need ≤ alignDown (layout.root.size - bytes) then
      .ok [.shrink layout.root.offset (alignDown (layout.root.size - bytes))]
    else .error "Luft wouldn't have room for its files"
  | .shrink _ => none

def Layout.startupSize (layout : Layout) : ℕ := layout.startup.elim 0 fun startup ↦ startup.1.size

/-- Where the root partition will start, and the steps that come before its own. -/
def aim (layout : Layout) : Change → Except String (List Step × ℕ)
  | .grow =>
    match layout.freeBefore with
    | none => .error "There's no free space right before Luft"
    | some free =>
      if free.size < max gib layout.startupSize then
        .error "The free space is too small for Luft to move into"
      else
        let target := alignUp free.offset
        match layout.startup with
        | some startup => .ok (moveStartup startup target, target + startup.1.size)
        | none => .ok ([], target)
  | .shrink bytes =>
    if bytes < max gib layout.startupSize then .error "That's too little to give back"
    else .ok ([], alignDown (layout.root.offset + bytes))
  | .trim _ => .error "trimming happens in place"

/-- Where the root partition will end. -/
def Layout.growsTo (layout : Layout) : Change → ℕ
  | .grow => layout.freeAfter.elim layout.root.fin Span.fin
  | _ => layout.root.fin

/-- The startup partition follows a root that moves to the right. -/
def Layout.startupRight (layout : Layout) (target : ℕ) : Change → List Step
  | .shrink _ => layout.startup.elim [] fun startup ↦ moveStartup startup (target - startup.1.size)
  | _ => []

/-- The steps that come after the root partition's own. -/
def closing (layout : Layout) (change : Change) (target : ℕ) : List Step :=
  layout.startupRight target change ++ ([.rename target layout.rootUuid] ++
    layout.luksUuid.elim [] fun uuid ↦ [.settle target uuid])

def Layout.move (layout : Layout) (change : Change) (target : ℕ) : Move :=
  { root := layout.root
    target := target
    fin := layout.growsTo change
    need := needed layout.allocated
    sealed := layout.luksUuid.isSome }

def plan (layout : Layout) (change : Change) : Except String (List Step) :=
  (inPlace layout change (needed layout.allocated)).getD <|
    (aim layout change).bind fun aimed ↦
      (layout.move change aimed.2).steps.map fun steps ↦
        aimed.1 ++ steps ++ closing layout change aimed.2

end Mover

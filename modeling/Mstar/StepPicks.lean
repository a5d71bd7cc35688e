import Mathlib.Data.List.Sort
import Mathlib.Data.List.Dedup
import Mathlib.Logic.Function.Basic

/-!
# Who runs a step

The rows of a step picked out of a chain's own rows, the backlog and the ready queues:
taken in line while the step's composition of walks lets them join, one capture
group a step, and without a loop where all of one walk fit.
-/

namespace Mstar.StepPicks

variable {ρ ω γ κ : Type}

/-- How rows line up for a step that can't take them all. -/
structure LineOrder (ρ κ : Type) where
  /-- The sort key, lowest first. -/
  key : ρ → κ
  /-- Whether a row of another capture group holds back the rows behind it. -/
  strict : Bool

/-- Every row that could run one step. -/
structure StepCandidates (ρ ω γ κ : Type) where
  /-- The step's walk, a combined walk's label where there is one. -/
  graphWalk : ω
  /-- A chain's own rows. -/
  continuing : List ρ
  /-- Their walk. -/
  ownWalk : ω
  /-- The backlogged rows. -/
  backlog : List ρ
  /-- The rows on the ready queues. -/
  queued : List ρ
  walkOf : ρ → ω
  /-- The walk of every row, when the caller knows they share one. -/
  oneWalk : Option ω
  /-- Whether the engine is ready for a backlogged or queued row. -/
  ready : ρ → Bool
  /-- A row's capture group, when the step is split by it. -/
  captureGroup : Option (ρ → γ)
  /-- Each walk's cap, the label's being the cap of a step that mixes walks. -/
  walkCaps : List (ω × Option ℕ)
  /-- The most rows of each walk in a step that mixes walks. -/
  walkRowCaps : List (ω × ℕ)
  /-- The order for when the rows don't all fit. -/
  lineOrder : LineOrder ρ κ

/-- The rows a step takes. -/
structure StepPick (ρ : Type) where
  /-- The rows in the order they were taken. -/
  taken : List ρ
  /-- The chain's rows, those that keep their place first. -/
  continuing : List ρ
  /-- How many of them keep their place, when something caps the step. -/
  room : Option ℕ
  /-- The rows passed over for a walk cap or another capture group. -/
  heldBack : List ρ
  /-- Whether the rows did not all fit. -/
  ordered : Bool
  deriving DecidableEq

/-- Whether a row can join a step. -/
inductive Verdict where
  | joins
  | full
  | walkLeftOut
  deriving DecidableEq

/-- The smaller of two caps, where there are any. -/
def minCap : Option ℕ → Option ℕ → Option ℕ
  | none, cap => cap
  | cap, none => cap
  | some a, some b => some (min a b)

/-- The largest cap, unless one of them is none. -/
def mostOf : List (Option ℕ) → Option ℕ
  | [] => none
  | [cap] => cap
  | cap :: caps =>
    match cap, mostOf caps with
    | some a, some b => some (max a b)
    | _, _ => none

section Walks

variable [DecidableEq ω]

/-- A walk's cap, none where it has none or is not listed. -/
def capOf (caps : List (ω × Option ℕ)) (walk : ω) : Option ℕ := (caps.lookup walk).join

/-- The rows a step has taken so far, by walk. -/
structure Composition (ω : Type) where
  caps : List (ω × Option ℕ)
  rowCaps : List (ω × ℕ)
  label : ω
  walks : List ω
  counts : ω → ℕ
  cap : Option ℕ
  n : ℕ
  /-- No step of any mix of walks holds more. -/
  most : Option ℕ
  /-- The cap with the row that was last let in. -/
  nextCap : Option ℕ

namespace Composition

/-- Before the first row. -/
def new (c : StepCandidates ρ ω γ κ) : Composition ω where
  caps := c.walkCaps
  rowCaps := c.walkRowCaps
  label := c.graphWalk
  walks := []
  counts _ := 0
  cap := none
  n := 0
  most := mostOf (c.walkCaps.map Prod.snd)
  nextCap := none

/-- The cap with a row of a walk in the step. -/
def capWith (s : Composition ω) (walk : ω) : Option ℕ :=
  if walk ∈ s.walks then s.cap
  else
    match if s.walks = [] then none else capOf s.caps s.label with
    | some mixed => some mixed
    | none => minCap s.cap (capOf s.caps walk)

/-- Whether a row of a walk would pass a row cap of a step that mixes walks. -/
def passesRowCap (s : Composition ω) (walk : ω) : Bool :=
  if s.rowCaps = [] ∨ s.walks = [] then false
  else if walk ∉ s.walks then
    -- the row makes the step mix walks: every walk's rows count
    (s.walks ++ [walk]).any fun w =>
      match s.rowCaps.lookup w with
      | some most => decide (most < s.counts w + if w = walk then 1 else 0)
      | none => false
  else
    match s.rowCaps.lookup walk with
    | some most => decide (1 < s.walks.length ∧ most < s.counts walk + 1)
    | none => false

/-- Whether a row of a walk can join, its cap kept for when it does. -/
def admits (s : Composition ω) (walk : ω) : Verdict × Composition ω :=
  let newCap := s.capWith walk
  if newCap.any (· ≤ s.n) then (if walk ∈ s.walks then .full else .walkLeftOut, s)
  else if s.passesRowCap walk then (.walkLeftOut, s)
  else (.joins, { s with nextCap := newCap })

/-- A row of a walk taken, just after it was let in. -/
def add (s : Composition ω) (walk : ω) : Composition ω :=
  { s with
    walks := if walk ∈ s.walks then s.walks else s.walks ++ [walk]
    counts := Function.update s.counts walk (s.counts walk + 1)
    cap := s.nextCap
    n := s.n + 1 }

def isFull (s : Composition ω) : Bool := s.most.any (· ≤ s.n)

def capped (s : Composition ω) : Bool := s.cap.isSome

end Composition

namespace StepCandidates

variable [DecidableEq ρ]

/-- The chain's rows as a set. -/
def chain (c : StepCandidates ρ ω γ κ) : List ρ := c.continuing.dedup

/-- The walk a row runs. -/
def walkIn (c : StepCandidates ρ ω γ κ) (rid : ρ) : ω :=
  if rid ∈ c.chain then c.ownWalk else c.walkOf rid

/-- Whether rows of several walks all join in this order. -/
def allJoin (c : StepCandidates ρ ω γ κ) : List ρ → Composition ω → Bool
  | [], _ => true
  | rid :: rows, step =>
    match step.admits (c.walkIn rid) with
    | (.joins, step) => c.allJoin rows (step.add (c.walkIn rid))
    | _ => false

/-- Whether a step taking the rows in this order would hold them all. -/
def allFit (c : StepCandidates ρ ω γ κ) (rows : List ρ) : Bool :=
  match c.oneWalk with
  | some walk =>
    match capOf c.walkCaps walk with
    | none => true
    | some cap => decide (rows.length ≤ cap)
  | none => c.allJoin rows (Composition.new c)

/-- Where the loop over the rows is. -/
structure Loop (ρ ω γ : Type) where
  taken : List ρ
  heldBack : List ρ
  /-- The step's capture group, once it has one. -/
  group : Option γ
  /-- The composition, where the rows may be of several walks. -/
  step : Option (Composition ω)

variable [DecidableEq γ]

/-- The chain's capture group, that of its first row. -/
def chainGroup (c : StepCandidates ρ ω γ κ) : Option γ :=
  match c.captureGroup, c.continuing with
  | some groupOf, rid :: _ => some (groupOf rid)
  | _, _ => none

/-- The cap of a step whose rows share a walk. -/
def oneCap (c : StepCandidates ρ ω γ κ) : Option ℕ :=
  match c.oneWalk with
  | some walk => capOf c.walkCaps walk
  | none => none

/-- A row that the step takes. -/
def take (rid : ρ) (walk : ω) (s : Loop ρ ω γ) : Loop ρ ω γ :=
  { s with
    step := s.step.map fun step => step.add walk
    taken := s.taken ++ [rid] }

/-- A row that can join by its walk: taken if it is ready and of the step's group. None
where the loop ends. -/
def joinRow (c : StepCandidates ρ ω γ κ) (strict : Bool) (rid : ρ) (s : Loop ρ ω γ) :
    Option (Loop ρ ω γ) :=
  let inChain := decide (rid ∈ c.chain)
  if !inChain && !c.ready rid then some s
  else
    match c.captureGroup with
    | none => some (take rid (c.walkIn rid) s)
    | some groupOf =>
      let ridGroup := if inChain then c.chainGroup else some (groupOf rid)
      match s.group with
      | none => some (take rid (c.walkIn rid) { s with group := ridGroup })
      | some group =>
        if ridGroup = some group then some (take rid (c.walkIn rid) s)
        else if strict then none
        else some { s with heldBack := s.heldBack ++ [rid] }

/-- One row of the loop. None where the loop ends. -/
def turn (c : StepCandidates ρ ω γ κ) (strict : Bool) (rid : ρ) (s : Loop ρ ω γ) :
    Option (Loop ρ ω γ) :=
  match s.step with
  | none => if c.oneCap.any (· ≤ s.taken.length) then none else c.joinRow strict rid s
  | some step =>
    if step.isFull then none
    else
      match step.admits (c.walkIn rid) with
      | (.joins, step) => c.joinRow strict rid { s with step := some step }
      | (.walkLeftOut, step) =>
        some { s with step := some step, heldBack := s.heldBack ++ [rid] }
      | (.full, step) => some { s with step := some step }

/-- The loop over the rows. -/
def walkRows (c : StepCandidates ρ ω γ κ) (strict : Bool) : List ρ → Loop ρ ω γ → Loop ρ ω γ
  | [], s => s
  | rid :: rows, s =>
    match c.turn strict rid s with
    | none => s
    | some s => c.walkRows strict rows s

/-- The loop before the first row. -/
def startLoop (c : StepCandidates ρ ω γ κ) (ordered : Bool) : Loop ρ ω γ where
  taken := []
  heldBack := []
  -- every row fits: the chain's group, else the first row's
  group := if ordered then none else c.chainGroup
  step := if c.oneWalk.isSome then none else some (Composition.new c)

/-- What a loop over the rows of a line has picked. -/
def pickOf (c : StepCandidates ρ ω γ κ) (ordered : Bool) (rows : List ρ) (s : Loop ρ ω γ) :
    StepPick ρ :=
  let kept := s.taken.filter (· ∈ c.chain)
  let behind := if kept.length < c.chain.length then
      rows.filter fun rid => rid ∈ c.chain ∧ rid ∉ kept
    else []
  let capped := match s.step with
    | none => c.oneCap.isSome
    | some step => step.capped
  { taken := s.taken
    continuing := kept ++ behind
    room := if capped || !behind.isEmpty then some kept.length else none
    heldBack := s.heldBack.filter (· ∉ c.chain)
    ordered := ordered }

/-- The rows in the order backlog, chain, queues. -/
def rows (c : StepCandidates ρ ω γ κ) : List ρ := c.backlog ++ c.continuing ++ c.queued

/-- The pick that a loop over some rows makes. -/
def walked (c : StepCandidates ρ ω γ κ) (ordered strict : Bool) (rows : List ρ) : StepPick ρ :=
  c.pickOf ordered rows (c.walkRows strict rows (c.startLoop ordered))

/-- The pick without a loop, where all rows of one walk fit and no group splits them. -/
def unsplit (c : StepCandidates ρ ω γ κ) : StepPick ρ where
  taken := c.backlog.filter c.ready ++ c.continuing ++
    c.queued.filter fun rid => rid ∉ c.chain ∧ c.ready rid
  continuing := c.continuing
  room := if c.oneCap.isSome then some c.continuing.length else none
  heldBack := []
  ordered := false

variable [LinearOrder κ]

/-- The rows in line: in the order's sort, ties in the order they came, where they don't
all fit. -/
def line (c : StepCandidates ρ ω γ κ) : List ρ :=
  if c.allFit c.rows then c.rows
  else c.rows.insertionSort fun a b => c.lineOrder.key a ≤ c.lineOrder.key b

/-- Who runs one step. -/
def pick (c : StepCandidates ρ ω γ κ) : StepPick ρ :=
  let ordered := !c.allFit c.rows
  let strict := ordered && c.lineOrder.strict
  if !ordered ∧ c.captureGroup.isNone ∧ c.oneWalk.isSome then c.unsplit
  else c.walked ordered strict c.line

end StepCandidates

end Walks

end Mstar.StepPicks

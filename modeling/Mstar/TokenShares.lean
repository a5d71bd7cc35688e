import Mathlib.Algebra.Order.Ring.Int
import Mathlib.Data.Finset.Basic
import Mathlib.Data.Int.Notation
import Mathlib.Data.List.MinMax
import Mathlib.Data.List.Sort
import Mathlib.Data.Nat.Notation

/-!
# Sharing a token budget

A step's rows share its token budget. Rows under an equal share go in whole.
The rest either follow in the order in which their prompts started, one of
them cut, or split what is left evenly. A row is never kept out of a step that
would be empty without it.
-/

namespace Mstar.TokenShares

variable {ρ : Type} [DecidableEq ρ]

/-- The order of the integers by which rows are compared, one that computes. -/
scoped instance preorderInt : Preorder ℤ := Int.instLinearOrder.toPreorder

/-- What rows take, in the order in which they were taken. -/
abbrev Takes (ρ : Type) := List (ρ × ℤ)

/-- The rows taken. -/
def rowsOf (take : Takes ρ) : List ρ := take.map (·.1)

/-- The tokens taken. -/
def total (take : Takes ρ) : ℤ := (take.map (·.2)).sum

/-- Rows under an equal share of what is left are taken whole, and the share
is worked out again over the rest, so many times at most. -/
def takeRounds (tokens : ρ → ℤ) : ℕ → List ρ → ℤ → Takes ρ × ℤ × List ρ
  | 0, pending, left => ([], left, pending)
  | rounds + 1, pending, left =>
    let fits := pending.filter fun rid => tokens rid ≤ left / pending.length
    if fits = [] then ([], left, pending)
    else
      let take := fits.map fun rid => (rid, tokens rid)
      let rest := takeRounds tokens rounds (pending.filter (· ∉ fits)) (left - total take)
      (take ++ rest.1, rest.2)

/-- Rows under an equal share are taken whole until none fits. Every round but
the last takes one at least. -/
def takeWhole (rids : List ρ) (tokens : ρ → ℤ) (budget : ℤ) : Takes ρ × ℤ × List ρ :=
  takeRounds tokens (rids.length + 1) rids budget

/-- A step is never empty while there is a row: the first runs, over budget if
it must. -/
def runHead (rids : List ρ) (tokens : ρ → ℤ) (chunkable : Finset ρ) (budget minChunk : ℤ)
    (take : Takes ρ) (dropped : List ρ) : Takes ρ × List ρ :=
  match take, rids with
  | [], head :: _ =>
    ([(head, if head ∈ chunkable then min (tokens head) (max (max budget minChunk) 1)
      else tokens head)], dropped.erase head)
  | take, _ => (take, dropped)

/-- When a row's prompt started; rows that have not are not asked. -/
def startedAt (startOrder : ρ → Option ℤ) (rid : ρ) : ℤ := (startOrder rid).getD 0

/-- The row mid-prefill that started first, of those that may be cut. -/
def oldestOf (chunkable : Finset ρ) (startOrder : ρ → Option ℤ) (pending : List ρ) : Option ρ :=
  (pending.filter fun rid => (startOrder rid).isSome ∧ rid ∈ chunkable).argmin
    (startedAt startOrder)

/-- What is kept out of the finishing pass. -/
def reservedFor (tokens : ρ → ℤ) (minChunk left : ℤ) : Option ρ → ℤ
  | some oldest => if minChunk ≤ left then min minChunk (tokens oldest) else 0
  | none => 0

/-- Rows that finish in what is left are taken, the oldest apart. -/
def finish (tokens : ρ → ℤ) (oldest : Option ρ) : ℤ → List ρ → Takes ρ
  | _, [] => []
  | left, rid :: rids =>
    if left < tokens rid ∨ some rid = oldest then finish tokens oldest left rids
    else (rid, tokens rid) :: finish tokens oldest (left - tokens rid) rids

/-- Rows mid-prefill by when they started, then the others as listed. -/
def line (startOrder : ρ → Option ℤ) (pending : List ρ) : List ρ :=
  (pending.filter fun rid => (startOrder rid).isSome).insertionSort
      (fun a b => startedAt startOrder a ≤ startedAt startOrder b) ++
    pending.filter fun rid => ¬ (startOrder rid).isSome

/-- Rows take all they need of what is left, in order. The first that does not
fit is cut, if enough is left; the others are left out. -/
def takeInOrder (tokens : ρ → ℤ) (chunkable : Finset ρ) (minChunk : ℤ) :
    ℤ → Bool → List ρ → Takes ρ × List ρ
  | _, _, [] => ([], [])
  | left, cut, rid :: rids =>
    if tokens rid ≤ left then
      let rest := takeInOrder tokens chunkable minChunk (left - tokens rid) cut rids
      ((rid, tokens rid) :: rest.1, rest.2)
    else if rid ∈ chunkable ∧ cut = false ∧ minChunk ≤ left then
      let rest := takeInOrder tokens chunkable minChunk 0 true rids
      ((rid, left) :: rest.1, rest.2)
    else
      let rest := takeInOrder tokens chunkable minChunk left cut rids
      (rest.1, rid :: rest.2)

/-- What the rows of the finishing pass take. -/
def finishing (tokens : ρ → ℤ) (chunkable : Finset ρ) (minChunk : ℤ)
    (startOrder : ρ → Option ℤ) (left : ℤ) (pending : List ρ) : Takes ρ :=
  let oldest := oldestOf chunkable startOrder pending
  finish tokens oldest (left - reservedFor tokens minChunk left oldest)
    (pending.insertionSort fun a b => tokens a ≤ tokens b)

/-- The budget goes to rows under an equal share, then to those that finish,
shortest first, then in the order in which prompts started. -/
def fillTokenBudgetInStartOrder (rids : List ρ) (tokens : ρ → ℤ) (chunkable : Finset ρ)
    (budget minChunk : ℤ) (startOrder : ρ → Option ℤ) : Takes ρ × List ρ :=
  let whole := takeWhole rids tokens budget
  let done := finishing tokens chunkable minChunk startOrder whole.2.1 whole.2.2
  let order := line startOrder (whole.2.2.filter (· ∉ rowsOf done))
  let ordered := takeInOrder tokens chunkable minChunk (whole.2.1 - total done) false order
  runHead order tokens chunkable budget minChunk (whole.1 ++ done ++ ordered.1) ordered.2

/-- How many of the rows that may be cut are, and what each gets at most. -/
def evenShare (minChunk left share : ℤ) (cut : List ρ) : ℕ × ℤ :=
  if cut ≠ [] ∧ share < minChunk then
    let n := min (cut.length : ℤ) (max left 0 / minChunk)
    (n.toNat, if n ≠ 0 then max (left / n) minChunk else 0)
  else (cut.length, share)

/-- The budget goes to rows under an equal share, and the rest split what is
left, each taking the fewest tokens of a cut row at least. -/
def fillTokenBudget (rids : List ρ) (tokens : ρ → ℤ) (chunkable : Finset ρ)
    (budget minChunk : ℤ) : Takes ρ × List ρ :=
  let whole := takeWhole rids tokens budget
  let left := whole.2.1
  let pending := whole.2.2
  let cut := pending.filter (· ∈ chunkable)
  let share := if pending = [] then 0 else left / pending.length
  let even := evenShare minChunk left share cut
  let now := cut.take even.1
  let take := whole.1 ++
    if 1 ≤ even.2 then now.map fun rid => (rid, min (tokens rid) even.2) else []
  let dropped := pending.filter (· ∉ chunkable) ++ cut.drop even.1 ++
    if 1 ≤ even.2 then [] else now
  runHead rids tokens chunkable budget minChunk take dropped

/-- What a row takes. -/
def tokensOf (take : Takes ρ) (rid : ρ) : ℤ :=
  ((take.find? (·.1 = rid)).map (·.2)).getD 0

/-- How rows share a budget. -/
abbrev Share (ρ : Type) :=
  List ρ → (ρ → ℤ) → Finset ρ → ℤ → ℤ → (ρ → Option ℤ) → Takes ρ × List ρ

/-- The builder that serves prompts in the order in which they started. -/
def fifo : Share ρ := fillTokenBudgetInStartOrder

/-- The builder that shares max-min fair; it does not ask when prompts
started. -/
def fairShare : Share ρ := fun rids tokens chunkable budget minChunk _ =>
  fillTokenBudget rids tokens chunkable budget minChunk

variable {ω : Type} [DecidableEq ω]

/-- Hold one walk's rows to its cap. -/
def capWalk (share : Share ρ) (rows : List ρ) (walkOf : ρ → ω) (chunkable : Finset ρ)
    (minChunk : ℤ) (startOrder : ρ → Option ℤ) (taken : Takes ρ × List ρ) (walk : ω × ℤ) :
    Takes ρ × List ρ :=
  let rids := rows.filter fun rid => rid ∈ rowsOf taken.1 ∧ walkOf rid = walk.1
  let tokens := tokensOf taken.1
  if (rids.map tokens).sum ≤ walk.2 then taken
  else
    let shared := share rids tokens chunkable walk.2 (min minChunk walk.2) startOrder
    (taken.1.filter (·.1 ∉ rids) ++ shared.1, taken.2 ++ shared.2)

/-- Hold each capped walk's rows to its cap. -/
def capWalks (share : Share ρ) (rows : List ρ) (walkOf : ρ → ω) (chunkable : Finset ρ)
    (caps : List (ω × ℤ)) (minChunk : ℤ) (startOrder : ρ → Option ℤ)
    (taken : Takes ρ × List ρ) : Takes ρ × List ρ :=
  caps.foldl (capWalk share rows walkOf chunkable minChunk startOrder) taken

end Mstar.TokenShares

import Mathlib.Algebra.Order.Ring.Int
import Mathlib.Data.Int.Notation
import Mathlib.Data.List.Basic
import Mathlib.Logic.Function.Basic

/-!
# The layout of a bounded row

A request's stream is a source prefix and the tokens it writes. A slot keeps
the written part of the stream's first entries, the sink, and behind it a ring
for the last ones, the window. A step reads at most five ranges and writes at
most three, worked out from the stream's length alone.
-/

namespace Mstar.BoundedKV

/-- Keep the first entries of a stream and the last ones; whether a step's own
tokens count among the last. -/
structure SinkWindow where
  sink : ℤ
  window : ℤ
  windowIncludesStep : Bool
  deriving DecidableEq, Repr

/-- How a policy is printed. -/
def SinkWindow.text (p : SinkWindow) : String :=
  "SinkWindow(sink=" ++ toString p.sink ++ ", window=" ++ toString p.window ++
    ", window_includes_step=" ++ (if p.windowIncludesStep then "True" else "False") ++ ")"

/-- What a model declares. -/
structure BoundedKVConfig where
  maxSourceLen : ℤ
  /-- What a request keeps, by the length of its source. -/
  retention : ℤ → SinkWindow
  maxSlots : ℤ
  minSourceLen : ℤ
  /-- A step's tokens join the stream last-first. -/
  reverseStepOrder : Bool
  queryWindow : Option ℤ

/-- What a config works out when it is accepted. -/
structure Resolved where
  policies : List SinkWindow
  sinkCapacity : ℤ
  windowCapacity : ℤ
  maxRetained : ℤ
  deriving DecidableEq, Repr

namespace BoundedKVConfig

/-- Check the policies in turn and keep the largest sink a source leaves
uncovered, window and number of entries. -/
def resolve (queryWindow : Option ℤ) :
    ℤ → List SinkWindow → ℤ × ℤ × ℤ → Except String (ℤ × ℤ × ℤ)
  | _, [], sizes => .ok sizes
  | n, policy :: policies, (sink, window, retained) =>
    if policy.sink < 0 ∨ policy.window < 0 then
      .error ("retention for " ++ toString n ++ " source tokens is " ++ policy.text)
    else
      match queryWindow.filter fun q =>
          policy.sink ≠ 0 ∨ policy.windowIncludesStep ∨ policy.window < q with
      | some q =>
        .error ("retention for " ++ toString n ++ " source tokens is " ++ policy.text ++
          ": a per-query window of " ++ toString q ++
          " takes no sink and a window of at least " ++ toString q)
      | none =>
        resolve queryWindow (n + 1) policies (max sink (policy.sink - n), max window policy.window,
          max retained (policy.sink + policy.window))

/-- The policy of each source length, from the shortest on. -/
def policies (c : BoundedKVConfig) : List SinkWindow :=
  (List.range (c.maxSourceLen + 1 - c.minSourceLen).toNat).map fun i : ℕ =>
    c.retention (c.minSourceLen + (i : ℤ))

/-- A config's own checks. -/
def postInit (c : BoundedKVConfig) : Except String Resolved :=
  if c.maxSlots < 1 then .error ("max_slots must be >= 1, got " ++ toString c.maxSlots)
  else if ¬ (0 ≤ c.minSourceLen ∧ c.minSourceLen ≤ c.maxSourceLen) then
    .error ("source lengths " ++ toString c.minSourceLen ++ ".." ++ toString c.maxSourceLen ++
      " are not a range")
  else
    match c.queryWindow.filter fun q => q < 0 ∨ c.reverseStepOrder with
    | some q =>
      .error ("query_window=" ++ toString q ++ " needs to be >= 0, with the stream in order")
    | none =>
      (resolve c.queryWindow c.minSourceLen c.policies (0, 0, 0)).map fun sizes =>
        ⟨c.policies, sizes.1, sizes.2.1, sizes.2.2⟩

end BoundedKVConfig

/-- The policy of a source length. -/
def Resolved.retentionFor (r : Resolved) (c : BoundedKVConfig) (sourceLen : ℤ) : SinkWindow :=
  r.policies.getD (sourceLen - c.minSourceLen).toNat ⟨0, 0, false⟩

/-- The tokens a slot holds. -/
def Resolved.slotTokens (r : Resolved) : ℤ := r.sinkCapacity + r.windowCapacity

/-- Ring positions one after the other, as at most two ranges. -/
def ringRanges (first count window : ℤ) : List (ℤ × ℤ) :=
  if count ≤ 0 then []
  else
    let start := first % window
    let head := min count (window - start)
    (start, head) :: if head < count then [(0, count - head)] else []

/-- What a row reads, what it writes, and how many tokens it writes. -/
structure RowLayout where
  /-- A start and a length each. -/
  reads : List (ℤ × ℤ)
  /-- The first of the step's tokens, where it goes, and how many follow. -/
  writes : List (ℤ × ℤ × ℤ)
  span : ℤ
  deriving DecidableEq, Repr

/-- Which ranges of a row are read from the source. -/
def READ_FROM_SOURCE : List Bool := [true, false, true, false, false]

/-- How many ranges a row reads. -/
def NUM_READS : ℕ := 5

/-- How many ranges a row writes. -/
def NUM_WRITES : ℕ := 3

/-- The numbers of a row of the table: slot, source, span and the ranges. -/
def ROW_INTS : ℕ := 3 + 2 * NUM_READS + 3 * NUM_WRITES

/-- Which of a step's tokens is a stream entry. -/
def freshOf (n span : ℤ) (reverse : Bool) (i : ℤ) : ℤ :=
  if reverse then n + span - 1 - i else i - n

/-- The writes of ring ranges that follow each other in the stream. -/
def ringWrites (fresh : ℤ → ℤ) (ring : ℤ) : ℤ → List (ℤ × ℤ) → List (ℤ × ℤ × ℤ)
  | _, [] => []
  | first, (s, c) :: ranges => (fresh first, ring + s, c) :: ringWrites fresh ring (first + c) ranges

/-- The first entry of the window that a step reads. -/
def windowFrom (n span : ℤ) (policy : SinkWindow) : ℤ :=
  max policy.sink (n - if policy.windowIncludesStep then policy.window - span else policy.window)

/-- The ranges of a row's retained keys, in stream order. -/
def rowReads (sourceLen written span : ℤ) (policy : SinkWindow) (sinkCapacity : ℤ) :
    List (ℤ × ℤ) :=
  let n := sourceLen + written
  let lo := windowFrom n span policy
  let first := max lo sourceLen
  let wrapped := ringRanges (first - policy.sink) (n - first) policy.window
  [(0, min policy.sink sourceLen), (0, max 0 (min policy.sink n - sourceLen)),
      (lo, max 0 (sourceLen - lo))] ++
    wrapped.map (fun r => (sinkCapacity + r.1, r.2)) ++
    List.replicate (2 - wrapped.length) (0, 0)

/-- The ranges a row's tokens go to, without the unused ones. -/
def usedWrites (sourceLen written span : ℤ) (policy : SinkWindow) (sinkCapacity : ℤ)
    (reverse : Bool) : List (ℤ × ℤ × ℤ) :=
  let n := sourceLen + written
  let fresh := freshOf n span reverse
  let sinkEnd := min policy.sink (n + span)
  let sinkWrites := if n < sinkEnd then [(fresh n, n - sourceLen, sinkEnd - n)] else []
  let first := max (max policy.sink n) (n + span - policy.window)
  sinkWrites ++
    if 0 < policy.window then
      ringWrites fresh sinkCapacity first
        (ringRanges (first - policy.sink) (n + span - first) policy.window)
    else []

/-- The reads and writes of a row whose stream holds some entries and gains some. -/
def rowLayout (sourceLen written span : ℤ) (policy : SinkWindow) (sinkCapacity : ℤ)
    (reverse : Bool) : RowLayout :=
  let writes := usedWrites sourceLen written span policy sinkCapacity reverse
  ⟨rowReads sourceLen written span policy sinkCapacity,
    writes ++ List.replicate (NUM_WRITES - writes.length) (0, 0, 0), span⟩

/-- A row of the table that a step's kernels read. -/
def flattenRow (slot : ℤ) (layout : RowLayout) (source : ℤ) : List ℤ :=
  [slot, source, layout.span] ++ layout.reads.flatMap (fun r => [r.1, r.2]) ++
    layout.writes.flatMap fun w => [w.1, w.2.1, w.2.2]

/-- Numbers one after the other. -/
def interval (start count : ℤ) : List ℤ := (List.range count.toNat).map fun j : ℕ => start + (j : ℤ)

variable {α : Type}

/-- What lies in a slot: at each position the key written last and the stream
entry it was, or what another stream left there. -/
abbrev Cells (α : Type) := ℤ → Option (ℤ × α)

/-- The tokens of a write and the positions they go to. -/
def tokenRange (reverse : Bool) (w : ℤ × ℤ × ℤ) : List (ℤ × ℤ) :=
  (interval 0 w.2.2).map fun j => (if reverse then w.1 - j else w.1 + j, w.2.1 + j)

/-- All tokens of a layout's writes and their positions. -/
def RowLayout.placed (layout : RowLayout) (reverse : Bool) : List (ℤ × ℤ) :=
  layout.writes.flatMap (tokenRange reverse)

/-- The keys of a range of the source or of the slot. -/
def readRange (source : ℤ → α) (cells : Cells α) (range : (ℤ × ℤ) × Bool) :
    List (Option (ℤ × α)) :=
  (interval range.1.1 range.1.2).map fun p => if range.2 then some (p, source p) else cells p

/-- The retained keys of a row, in the order of its ranges. -/
def gather (source : ℤ → α) (cells : Cells α) (layout : RowLayout) : List (Option (ℤ × α)) :=
  (layout.reads.zip READ_FROM_SOURCE).flatMap (readRange source cells)

/-- A step's tokens go into the slot, each marked as the entry it is. -/
def store (layout : RowLayout) (reverse : Bool) (entry : ℤ → ℤ) (tokens : List α)
    (cells : Cells α) : Cells α :=
  (layout.placed reverse).foldl (fun cells put =>
    Function.update cells put.2 ((tokens[put.1.toNat]?).map fun key => (entry put.1, key))) cells

end Mstar.BoundedKV

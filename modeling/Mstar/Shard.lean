import Mathlib.Data.List.Range
import Mathlib.Algebra.Order.Ring.Int

/-!
# One request's sharding map and its fan-out

The binding of node groups to a request's workers, the destinations one
source rank sends an edge to, and the number of source ranks a destination
worker waits for. Interned names are numbers. Rows, byte counts and offsets
are the integers an `i64` stands for, and every product, sum and difference of
them wraps as it does there; ranks scaled by `fanin` wrap in 32 bits.
-/

namespace Mstar.Shard

/-- An interned string: a node, a signal, a walk or a worker. -/
abbrev Sym := ℕ

/-- `Sym::MAX`, the worker of a destination that has no sharding group. -/
def symMax : Sym := 4294967295

/-- What is left of an integer in an `i64`. -/
def toI64 (x : ℤ) : ℤ := x.bmod (2 ^ 64)

/-- What is left of a number in a `u32`. -/
def toU32 (n : ℕ) : ℕ := n % 2 ^ 32

/-- The per-edge payload: one tensor's leading dim, bytes and byte offset. -/
structure TensorRef where
  /-- Dense handle of the stored tensor. -/
  uuid : ℕ
  /-- Rows of the leading (canonical) shard dim this source rank holds. -/
  dim0 : ℤ
  /-- Bytes of all those rows. -/
  nbytes : ℤ
  /-- Where the read starts in the stored tensor. -/
  offset : ℤ
  deriving DecidableEq, Repr

/-- A group bound to one request's workers. `Group::bind` refuses a worker
list of any other length than `tpSize`, and the deployment config an empty
group. -/
structure Group where
  /-- The group's workers, in rank order. -/
  workers : List Sym
  /-- Ranks the group's nodes are sharded over. -/
  tpSize : ℕ
  /-- This worker's rank, `none` until the conductor sets it. -/
  tpRank : Option (Fin tpSize)
  /-- The check of `Group::bind`. -/
  bound : workers.length = tpSize
  /-- A configured group has at least one rank. -/
  tpSize_pos : 0 < tpSize
  /-- The number of ranks is a `u32`. -/
  tpSize_lt : tpSize < 2 ^ 32

/-- One rank is within a `u32`. -/
theorem Group.one_lt : 1 < 2 ^ 32 := by decide

/-- Two ranks are within a `u32`. -/
theorem Group.two_lt : 2 < 2 ^ 32 := by decide

/-- `workers_set.contains`. -/
def Group.workersSetContains (g : Group) (worker : Sym) : Bool := g.workers.contains worker

/-- The worker at a rank of the group. -/
def Group.workerAt (g : Group) (rank : Fin g.tpSize) : Sym :=
  g.workers.get (rank.cast g.bound.symm)

/-- The same group as another of its ranks holds it. -/
def Group.atRank (g : Group) (rank : Fin g.tpSize) : Group := { g with tpRank := some rank }

/-- Why `fanout` refuses an edge. -/
inductive ShardError
  /-- A source group the conductor never ranked. -/
  | missingTpRank (node walk : Sym)
  /-- Destination ranks must divide the shard dim evenly. -/
  | notDivisible (total : ℤ) (destTp : ℕ)
  deriving DecidableEq, Repr

/-- One request's resolved sharding. -/
structure ShardMap where
  /-- Every group of the request. -/
  groups : List Group
  /-- `(node, walk)` to an index into `groups`; a `none` walk is the lookup
  of a streaming consumer, whose walk is not known when the edge is routed. -/
  groupMapping : Sym → Option Sym → Option (Fin groups.length)
  /-- Signal to shard dim; an absent signal is replicated. -/
  shardDim : Sym → Option ℕ

/-- One destination of an edge and the tensors as it should see them. -/
structure FanoutDest where
  /-- Receiving worker, `symMax` for the client or the conductor. -/
  worker : Sym
  /-- The source refs unchanged when replicated, sliced otherwise. -/
  tensors : List TensorRef
  deriving DecidableEq, Repr

/-- Keep rows `start..stop` of the leading shard dim. The division truncates
as the `i64` division does; a zero-length dim has no rows to take. -/
def sliceRows (t : TensorRef) (start stop : ℤ) : TensorRef :=
  let row := if t.dim0 = 0 then 0 else t.nbytes.tdiv t.dim0
  ⟨t.uuid, toI64 (stop - start), toI64 (toI64 (stop - start) * row), toI64 (start * row)⟩

/-- The group of a node in a walk. -/
def ShardMap.groupOf (m : ShardMap) (node : Sym) (walk : Option Sym) : Option Group :=
  (m.groupMapping node walk).map m.groups.get

/-- Ranks of a group; the client and the conductor count as one. -/
def tpSizeOf : Option Group → ℕ
  | some g => g.tpSize
  | none => 1

/-- Workers of a destination group; a special destination has one
pseudo-worker. -/
def destWorkersOf : Option Group → List Sym
  | some g => g.workers
  | none => [symMax]

/-- Destinations of a replicated signal: the source's own worker when the
destination group has it, and from rank 0 only every destination worker
outside the source group. -/
def replicatedDests (sg : Option Group) (srcWorker : Option Sym) (srcRank : ℕ)
    (destWorkers : List Sym) (t : List TensorRef) : List FanoutDest :=
  let own := match srcWorker with
    | some sw => if destWorkers.contains sw then [⟨sw, t⟩] else []
    | none => []
  let others := if srcRank = 0 then
      (destWorkers.filter fun w =>
        some w != srcWorker && !sg.any fun g => g.workersSetContains w).map fun w => ⟨w, t⟩
    else []
  own ++ others

/-- One tensor cut to its own overlap of the source's slab and the
destination's rows, relative to the slab. -/
def cutFor (srcTp destTp srcRank r : ℕ) (x : TensorRef) : TensorRef :=
  let perDest := (toI64 (x.dim0 * srcTp)).tdiv destTp
  let sStart := toI64 (srcRank * x.dim0)
  let sEnd := toI64 (sStart + x.dim0)
  let dStart := toI64 (r * perDest)
  let dEnd := toI64 (dStart + perDest)
  let lo := max sStart dStart
  let hi := min sEnd dEnd
  sliceRows x (toI64 (lo - sStart)) (toI64 (hi - sStart))

/-- The loop over destination ranks. The first tensor decides which ranks
overlap; past the last one the loop breaks. -/
def shardedDests (srcTp destTp srcRank : ℕ) (destWorkers : List Sym) (t : List TensorRef)
    (first : ℤ) : List ℕ → List FanoutDest
  | [] => []
  | r :: ranks =>
    let perDest0 := (toI64 (first * srcTp)).tdiv destTp
    let s0Start := toI64 (srcRank * first)
    let s0End := toI64 (s0Start + first)
    let d0Start := toI64 (r * perDest0)
    let d0End := toI64 (d0Start + perDest0)
    if s0End ≤ d0Start then []
    else if s0Start ≥ d0End then shardedDests srcTp destTp srcRank destWorkers t first ranks
    else ⟨destWorkers.getD r symMax, t.map (cutFor srcTp destTp srcRank r)⟩ ::
      shardedDests srcTp destTp srcRank destWorkers t first ranks

/-- The first tensor whose rows over all source ranks the destination ranks
do not divide, checked before any routing. -/
def indivisible (srcTp destTp : ℕ) (t : List TensorRef) : Option ShardError :=
  (t.find? fun x => Int.tmod (toI64 (x.dim0 * srcTp)) destTp != 0).map fun x =>
    .notDivisible (toI64 (x.dim0 * srcTp)) destTp

/-- Destinations for one edge, as the source rank holding this map sends
them. An unranked source group is an error on both paths, since rank 0 is the
broadcaster. -/
def ShardMap.fanout (m : ShardMap) (signal src srcWalk dst : Sym) (dstWalk : Option Sym)
    (t : List TensorRef) : Except ShardError (List FanoutDest) := do
  let sg := m.groupOf src (some srcWalk)
  let dg := m.groupOf dst dstWalk
  let (srcWorker, srcRank, srcTp) ← match sg with
    | some g => match g.tpRank with
      | some rank => pure (some (g.workerAt rank), rank.val, g.tpSize)
      | none => throw (.missingTpRank src srcWalk)
    | none => pure (none, 0, 1)
  let destWorkers := destWorkersOf dg
  let destTp := tpSizeOf dg
  match m.shardDim signal with
  | none => pure (replicatedDests sg srcWorker srcRank destWorkers t)
  | some _ =>
    match indivisible srcTp destTp t with
    | some error => throw error
    | none =>
      let first := (t.head?.map TensorRef.dim0).getD 0
      pure (shardedDests srcTp destTp srcRank destWorkers t first (List.range destTp))

/-- Whether source rank `s` and destination rank `r` overlap, on the scale
where the whole span is `srcTp * destTp` and both sides divide it evenly. -/
def overlaps (srcTp destTp s r : ℕ) : Bool :=
  let lo := toU32 (r * srcTp)
  let hi := toU32 (lo + srcTp)
  toU32 (s * destTp) < hi && toU32 ((s + 1) * destTp) > lo

/-- How many source ranks contribute to the copy `dstWorker` ends up with:
what tells the receiver to buffer an arrival until the others land. -/
def ShardMap.fanin (m : ShardMap) (signal src srcWalk dst : Sym) (dstWalk : Option Sym)
    (dstWorker : Sym) : ℕ :=
  match m.shardDim signal with
  | none => 1
  | some _ =>
    let srcTp := tpSizeOf (m.groupOf src (some srcWalk))
    let dg := m.groupOf dst dstWalk
    let destTp := tpSizeOf dg
    let destRank := (dg.bind fun g => g.workers.findIdx? (· == dstWorker)).getD 0
    ((List.range srcTp).filter fun s => overlaps srcTp destTp s destRank).length

/-- The map as rank `s` of the source's group holds it: each rank is a
worker of its own, and its copy of the map differs in the rank alone. -/
def ShardMap.asSource (m : ShardMap) (src srcWalk : Sym) (s : ℕ) : ShardMap where
  groups := m.groups.mapIdx fun i g =>
    if (m.groupMapping src (some srcWalk)).any (·.val == i) then
      if h : s < g.tpSize then g.atRank ⟨s, h⟩ else g
    else g
  groupMapping node walk := (m.groupMapping node walk).map (Fin.cast (by simp))
  shardDim := m.shardDim

end Mstar.Shard

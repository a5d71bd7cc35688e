import Mathlib.Algebra.BigOperators.Group.List.Basic
import Mathlib.Algebra.Ring.Int.Defs
import Mathlib.Data.List.Dedup
import Mstar.ShardAgreement

/-!
# The Python sharding configuration

The fan-out the conductor routes with. It works on whole tensor descriptors
and on the row ranges of the logical tensor, where the workers' fan-out works
on refs and on rows of the source's own slab.
-/

namespace Mstar.Shard

/-- The fields of a tensor descriptor that a fan-out reads or writes. -/
structure TensorPointerInfo where
  /-- Handle of the stored tensor. -/
  uuid : ℕ
  /-- Shape, the shard dim leading. A 0-dim tensor has none. -/
  dims : List ℤ
  /-- Bytes of an element. -/
  itemsize : ℕ
  /-- Bytes of the rows described. -/
  nbytes : ℤ
  /-- Where the read starts in the stored tensor. -/
  offset : ℤ
  deriving DecidableEq

namespace TensorPointerInfo

/-- A contiguous tensor holds its elements and nothing else. -/
def Contiguous (info : TensorPointerInfo) : Prop := info.nbytes = info.itemsize * info.dims.prod

instance (info : TensorPointerInfo) : Decidable info.Contiguous :=
  inferInstanceAs (Decidable (_ = _))

/-- `dims[0]`, and 0 rows for a missing leading dim. -/
def rows (info : TensorPointerInfo) : ℤ := info.dims.headD 0

/-- `Bookkeeping::tensor_ref`: what the workers' routing keeps of a tensor. -/
def tensorRef (info : TensorPointerInfo) : TensorRef := ⟨info.uuid, info.rows, info.nbytes, info.offset⟩

/-- `sliced_infos` for one ref: the stored descriptor, cut down to the ref. -/
def slicedTo (info : TensorPointerInfo) (r : TensorRef) : TensorPointerInfo :=
  { info with
    dims := match info.dims with
      | [] => []
      | _ :: rest => r.dim0 :: rest
    nbytes := r.nbytes
    offset := r.offset }

end TensorPointerInfo

/-- What a Python fan-out raises. -/
inductive PyError
  /-- The assertion that a source group has a rank. -/
  | unranked
  /-- A rank past the workers of its group. -/
  | noWorker
  /-- The assertion that destination ranks divide the shard dim. -/
  | indivisible
  /-- An index into an empty list. -/
  | indexError
  deriving DecidableEq

/-- A request's resolved `ShardingConfig`. -/
structure ShardingConfig where
  /-- `(node, walk)` to its group; `none` is a streaming consumer's walk. -/
  groupMapping : Sym → Option Sym → Option Group
  /-- Signal to shard dim; an absent signal is replicated. -/
  shardDim : Sym → Option ℕ

/-- `ShardDestination`. The row ranges are of the logical tensor. -/
structure ShardDestination where
  worker : Sym
  fullTensor : Bool
  tpRank : ℕ
  startIdxs : List ℤ
  endIdxs : List ℤ

/-- A group's `_worker_to_tp_rank`, the pseudo-worker's for no group. A
later rank overwrites an earlier one of the same worker. -/
def workerToTpRank (workers : List Sym) (worker : Sym) : ℕ :=
  ((List.range workers.length).reverse.find? fun i => workers[i]? == some worker).getD 0

/-- A copy of an edge as a destination gets it. -/
structure SentEdge where
  tensorInfo : List TensorPointerInfo
  shardDim : Option ℕ
  /-- Source ranks that contribute to the destination's copy. -/
  totalFanin : ℕ

namespace ShardingConfig

/-- The source's rank, worker and workers, and its TP size. A special source
is one rank; an explicit rank takes precedence over the group's. -/
def sourceOf (c : ShardingConfig) (e : Route) (sourceTpRank : Option ℕ) :
    Except PyError (ℕ × Option Sym × List Sym × ℕ) :=
  match c.groupMapping e.src (some e.srcWalk) with
  | none => .ok (0, none, [], 1)
  | some g =>
    match sourceTpRank <|> g.tpRank.map Fin.val with
    | none => .error .unranked
    | some rank =>
      match g.workers[rank]? with
      | none => .error .noWorker
      | some worker => .ok (rank, some worker, g.workers, g.tpSize)

/-- Destinations of a replicated signal. -/
def replicated (srcRank : ℕ) (srcWorker : Option Sym) (srcWorkers destWorkers : List Sym) :
    List ShardDestination :=
  let own := match srcWorker with
    | some sw => if sw ∈ destWorkers then [sw] else []
    | none => []
  let needing := if srcRank = 0 then destWorkers.dedup.filter (· ∉ srcWorkers) else []
  (own ++ needing).map fun w => ⟨w, true, workerToTpRank destWorkers w, [], []⟩

/-- The first row that source rank `srcRank` and destination rank `r` share of
a tensor of which each source rank holds `s` rows. -/
def startIdx (srcTp destTp srcRank r : ℕ) (s : ℤ) : ℤ := max (srcRank * s) (r * (s * srcTp / destTp))

/-- The end of the rows they share. -/
def endIdx (srcTp destTp srcRank r : ℕ) (s : ℤ) : ℤ :=
  min ((srcRank + 1) * s) ((r + 1) * (s * srcTp / destTp))

/-- The destination of one rank that overlaps the source's rows. -/
def shardFor (srcTp destTp srcRank : ℕ) (destWorkers : List Sym) (sizes : List ℤ) (r : ℕ) :
    ShardDestination where
  worker := destWorkers.getD r symMax
  fullTensor := false
  tpRank := workerToTpRank destWorkers (destWorkers.getD r symMax)
  startIdxs := sizes.map (startIdx srcTp destTp srcRank r)
  endIdxs := sizes.map (endIdx srcTp destTp srcRank r)

/-- The loop over destination ranks, on the first tensor's rows. -/
def shards (srcTp destTp srcRank : ℕ) (destWorkers : List Sym) (sizes : List ℤ) :
    List ℕ → Except PyError (List ShardDestination)
  | [] => .ok []
  | r :: ranks =>
    match sizes with
    | [] => .error .indexError
    | first :: _ =>
      let destShard := first * srcTp / destTp
      if (srcRank + 1) * first ≤ r * destShard then .ok []
      else if srcRank * first ≥ (r + 1) * destShard then
        shards srcTp destTp srcRank destWorkers sizes ranks
      else do
        let rest ← shards srcTp destTp srcRank destWorkers sizes ranks
        pure (shardFor srcTp destTp srcRank destWorkers sizes r :: rest)

/-- `compute_fanout`. -/
def computeFanout (c : ShardingConfig) (e : Route) (shardDimSizes : List ℤ)
    (sourceTpRank : Option ℕ) : Except PyError (List ShardDestination) := do
  let (srcRank, srcWorker, srcWorkers, srcTp) ← c.sourceOf e sourceTpRank
  let dg := c.groupMapping e.dst e.dstWalk
  match c.shardDim e.signal with
  | none => pure (replicated srcRank srcWorker srcWorkers (destWorkersOf dg))
  | some _ =>
    if shardDimSizes.all fun s => s * srcTp % tpSizeOf dg == 0 then
      shards srcTp (tpSizeOf dg) srcRank (destWorkersOf dg) shardDimSizes (List.range (tpSizeOf dg))
    else throw .indivisible

/-- `compute_fanin`. -/
def computeFanin (c : ShardingConfig) (e : Route) (sourceTpSize destTpRank : ℕ) : ℕ :=
  match c.shardDim e.signal with
  | none => 1
  | some _ =>
    let destTp := tpSizeOf (c.groupMapping e.dst e.dstWalk)
    let destLo := destTpRank * sourceTpSize
    let destHi := destLo + sourceTpSize
    ((List.range sourceTpSize).filter fun r =>
      r * destTp < destHi && (r + 1) * destTp > destLo).length

/-- One descriptor cut to rows `startIdx` to `endIdx` of the logical tensor,
which are read out of the slab this source rank holds. -/
def cutInfo (srcRank : ℕ) (info : TensorPointerInfo) (startIdx endIdx : ℤ) :
    Except PyError TensorPointerInfo :=
  match info.dims with
  | [] => .error .indexError
  | d :: rest =>
    let rowNbytes := info.itemsize * rest.prod
    let localStart := startIdx - srcRank * d
    .ok { info with
      dims := (endIdx - startIdx) :: rest
      nbytes := (endIdx - startIdx) * rowNbytes
      offset := localStart * rowNbytes }

/-- Every descriptor of an edge cut to its own row range. -/
def cutInfos (srcRank : ℕ) : List TensorPointerInfo → List ℤ → List ℤ →
    Except PyError (List TensorPointerInfo)
  | [], _, _ => .ok []
  | info :: infos, s :: starts, e :: ends => do
    let cut ← cutInfo srcRank info s e
    let rest ← cutInfos srcRank infos starts ends
    pure (cut :: rest)
  | _ :: _, _, _ => .error .indexError

/-- The copy of the edge for one destination. -/
def edgeFor (c : ShardingConfig) (e : Route) (tensorInfo : List TensorPointerInfo)
    (srcTp srcRank : ℕ) (item : ShardDestination) : Except PyError (Sym × SentEdge) := do
  let fanin := c.computeFanin e srcTp item.tpRank
  let infos ← if item.fullTensor then pure tensorInfo
    else cutInfos srcRank tensorInfo item.startIdxs item.endIdxs
  pure (item.worker, ⟨infos, c.shardDim e.signal, fanin⟩)

/-- A dict filled in order: a later value overwrites an earlier one. -/
def dictOf (entries : List (Sym × SentEdge)) : Sym → Option SentEdge :=
  entries.foldl (fun d entry => Function.update d entry.1 (some entry.2)) fun _ => none

/-- `fanout_graph_edges`: destination worker to its copy of the edge. -/
def fanoutGraphEdges (c : ShardingConfig) (e : Route) (tensorInfo : List TensorPointerInfo)
    (sourceTpRank : Option ℕ) : Except PyError (Sym → Option SentEdge) := do
  let sizes := match c.shardDim e.signal with
    | none => []
    | some _ => tensorInfo.map TensorPointerInfo.rows
  let fanout ← c.computeFanout e sizes sourceTpRank
  let (srcRank, _, _, srcTp) ← c.sourceOf e sourceTpRank
  let entries ← fanout.mapM (c.edgeFor e tensorInfo srcTp srcRank)
  pure (dictOf entries)

end ShardingConfig

end Mstar.Shard

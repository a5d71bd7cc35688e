import Mathlib.Data.List.Dedup
import Mstar.ShardPython

/-!
# The conductor splits a step's inputs

An input edge has descriptors from any mix of source ranks, nodes and walks.
They are grouped by source, each group is fanned out on its own, and a worker
then joins the edges it got for one name, consumer and source rank back in the
order of the inputs. A list of descriptors is an object of its own: a
replicated fan-out gives the same one to several workers.
-/

namespace Mstar.SplitInputs

open Shard

/-- A tensor descriptor with where it comes from. -/
structure Descriptor where
  /-- What a fan-out reads and writes. -/
  info : TensorPointerInfo
  /-- The source's rank. -/
  sourceTpRank : ℕ
  /-- The producing node, `none` for the API server. -/
  sourceNodeName : Option Sym
  /-- The walk the producer ran in. -/
  sourceGraphWalk : Option Sym
  deriving DecidableEq

/-- A list object, named by the place that made it. -/
inductive ListId
  /-- The list of an edge as it was passed in. -/
  | given (e : ℕ)
  /-- The copy of signal-only input `e` for its `n`-th destination. -/
  | copied (e n : ℕ)
  /-- The descriptors of group `g` of input `e`. -/
  | grouped (e g : ℕ)
  /-- The cut of group `g` of input `e` for its `n`-th destination. -/
  | cut (e g n : ℕ)
  /-- The sum a worker made when it joined its `k`-th edge to an earlier one. -/
  | joined (worker : Sym) (k : ℕ)
  /-- The `k`-th list a worker put in the order of the inputs. -/
  | ordered (worker : Sym) (k : ℕ)
  deriving DecidableEq

/-- A list of descriptors. -/
structure DescriptorList where
  /-- Which object it is. -/
  id : ListId
  /-- What it has. -/
  items : List Descriptor
  deriving DecidableEq

/-- `GraphEdge`. -/
structure GraphEdge where
  /-- The consumer. -/
  nextNode : Sym
  /-- The signal. -/
  name : Sym
  /-- The descriptors. -/
  tensorInfo : DescriptorList
  /-- Kept at the conductor across forward passes. -/
  persist : Bool
  /-- Counted toward the output-token total. -/
  conductorNewToken : Bool
  /-- A streaming edge. -/
  isStreaming : Bool
  /-- Only for the client. -/
  outputModality : Sym
  /-- Kept for a loop. -/
  persistForLoop : Bool
  /-- Carries a stream's final chunk. -/
  finalStreamChunk : Bool
  /-- Source ranks that contribute to the destination's copy. -/
  totalFanin : ℕ := 1
  /-- The dim the signal is cut along. -/
  shardDim : Option ℕ := none
  deriving DecidableEq

/-- `clone`: everything but the sharding, with the descriptors in a list
object of its own. -/
def GraphEdge.clone (edge : GraphEdge) (id : ListId) : GraphEdge :=
  { edge with tensorInfo := ⟨id, edge.tensorInfo.items⟩, totalFanin := 1, shardDim := none }

/-- A request's resolved `ShardingConfig`, with the workers of every node. -/
structure RequestConfig extends ShardingConfig where
  /-- `(node, walk)` to its workers; no workers for an absent key. -/
  nodeToWorker : Sym → Sym → List Sym

namespace RequestConfig

/-- The group of a source. `None` is no node's name. -/
def sourceGroup (c : RequestConfig) (node graphWalk : Option Sym) : Option Group :=
  node.bind fun node => c.groupMapping node graphWalk

/-- A config that knows the two ends of an edge and no other: the source is
node 0, the destination node 1. -/
def between (c : RequestConfig) (source dest : Option Group) : ShardingConfig :=
  ⟨fun node _ => if node = 0 then source else dest, c.shardDim⟩

/-- The edge between them. -/
def routeOf (name : Sym) : Route := ⟨name, 0, 0, 1, none⟩

/-- The destinations of an edge, with the source's rank and TP size. -/
def destinations (c : RequestConfig) (edge : GraphEdge) (sourceNode sourceGraphWalk : Option Sym)
    (destGraphWalk : Sym) (sourceTpRank : ℕ) :
    Except PyError (List ShardDestination × ℕ × ℕ) := do
  let ends := c.between (c.sourceGroup sourceNode sourceGraphWalk)
    (c.groupMapping edge.nextNode (some destGraphWalk))
  let sizes := match c.shardDim edge.name with
    | none => []
    | some _ => edge.tensorInfo.items.map (·.info.rows)
  let fanout ← ends.computeFanout (routeOf edge.name) sizes (some sourceTpRank)
  let (srcRank, _, _, srcTp) ← ends.sourceOf (routeOf edge.name) (some sourceTpRank)
  pure (fanout, srcRank, srcTp)

/-- Every descriptor of an edge cut to its own row range. -/
def cutAll (srcRank : ℕ) : List Descriptor → List ℤ → List ℤ → Except PyError (List Descriptor)
  | [], _, _ => .ok []
  | d :: ds, start :: starts, stop :: stops => do
    let info ← ShardingConfig.cutInfo srcRank d.info start stop
    let rest ← cutAll srcRank ds starts stops
    pure ({ d with info := info } :: rest)
  | _ :: _, _, _ => .error .indexError

/-- The copy of the edge for its `n`-th destination. An uncut one shares the
list of the edge. -/
def edgeTo (c : RequestConfig) (edge : GraphEdge) (dest : Option Group) (srcRank srcTp : ℕ)
    (fresh : ℕ → ListId) (item : ShardDestination × ℕ) : Except PyError (Sym × GraphEdge) :=
  let edge' := { edge.clone (fresh item.2) with
    shardDim := c.shardDim edge.name
    totalFanin := (c.between none dest).computeFanin (routeOf edge.name) srcTp item.1.tpRank }
  if item.1.fullTensor then .ok (item.1.worker, { edge' with tensorInfo := edge.tensorInfo })
  else
    match cutAll srcRank edge.tensorInfo.items item.1.startIdxs item.1.endIdxs with
    | .error e => .error e
    | .ok cut => .ok (item.1.worker, { edge' with tensorInfo := ⟨fresh item.2, cut⟩ })

end RequestConfig

/-- The items of a dict filled in order: a later value overwrites an earlier
one. -/
def dictItems {α : Type} (entries : List (Sym × α)) : List (Sym × α) :=
  (entries.map Prod.fst).dedup.filterMap fun key => entries.reverse.find? fun entry => entry.1 == key

namespace RequestConfig

/-- `fanout_graph_edges`: destination worker to its copy of the edge. -/
def fanoutGraphEdges (c : RequestConfig) (edge : GraphEdge)
    (sourceNode sourceGraphWalk : Option Sym) (destGraphWalk : Sym) (sourceTpRank : ℕ)
    (fresh : ℕ → ListId) : Except PyError (List (Sym × GraphEdge)) :=
  match c.destinations edge sourceNode sourceGraphWalk destGraphWalk sourceTpRank with
  | .error e => .error e
  | .ok (fanout, srcRank, srcTp) =>
    let dest := c.groupMapping edge.nextNode (some destGraphWalk)
    (fanout.zipIdx.mapM (c.edgeTo edge dest srcRank srcTp fresh)).map dictItems

end RequestConfig

/-- What the descriptors of an edge are grouped by. -/
structure SourceKey where
  /-- The source's rank. -/
  rank : ℕ
  /-- The producing node. -/
  node : Option Sym
  /-- Its walk. -/
  graphWalk : Option Sym
  deriving DecidableEq

/-- Where a descriptor comes from. -/
def Descriptor.source (d : Descriptor) : SourceKey :=
  ⟨d.sourceTpRank, d.sourceNodeName, d.sourceGraphWalk⟩

/-- Append an index to its group, a new one if there is none. -/
def addToGroup (key : SourceKey) (i : ℕ) : List (SourceKey × List ℕ) → List (SourceKey × List ℕ)
  | [] => [(key, [i])]
  | (key', idxs) :: rest =>
    if key' = key then (key', idxs ++ [i]) :: rest else (key', idxs) :: addToGroup key i rest

/-- The indices of an edge's descriptors by source, in the order first met. -/
def groupsOf (items : List Descriptor) : List (SourceKey × List ℕ) :=
  items.zipIdx.foldl (fun groups d => addToGroup d.1.source d.2 groups) []

/-- An edge on its way to a worker, with the place each of its descriptors has
in the inputs: the input's index, and the descriptor's. -/
structure Placed where
  /-- The edge. -/
  edge : GraphEdge
  /-- The places, none for a signal-only edge. -/
  positions : List (ℕ × ℕ)

/-- A signal-only input goes to every destination worker. -/
def signalCopies (c : RequestConfig) (graphWalk : Sym) (edge : GraphEdge) (e : ℕ) :
    List (Sym × Placed) :=
  (c.nodeToWorker edge.nextNode graphWalk).zipIdx.map fun worker =>
    (worker.1, ⟨edge.clone (.copied e worker.2), []⟩)

/-- The edge of one group. -/
def subEdge (edge : GraphEdge) (e g : ℕ) (idxs : List ℕ) : GraphEdge :=
  { edge.clone (.grouped e g) with
    tensorInfo := ⟨.grouped e g, idxs.filterMap fun i => edge.tensorInfo.items[i]?⟩ }

/-- One group of an input fanned out. -/
def fanGroup (c : RequestConfig) (graphWalk : Sym) (edge : GraphEdge) (e : ℕ)
    (group : (SourceKey × List ℕ) × ℕ) : Except PyError (List (Sym × Placed)) :=
  (c.fanoutGraphEdges (subEdge edge e group.2 group.1.2) group.1.1.node group.1.1.graphWalk
    graphWalk group.1.1.rank (.cut e group.2)).map fun fanout =>
      fanout.map fun sent => (sent.1, ⟨sent.2, group.1.2.map fun i => (e, i)⟩)

/-- One input sent on its way. -/
def splitEdge (c : RequestConfig) (graphWalk : Sym) (edge : GraphEdge × ℕ) :
    Except PyError (List (Sym × Placed)) :=
  if edge.1.tensorInfo.items.isEmpty then .ok (signalCopies c graphWalk edge.1 edge.2)
  else
    ((groupsOf edge.1.tensorInfo.items).zipIdx.mapM
      (fanGroup c graphWalk edge.1 edge.2)).map List.flatten

/-- Every input sent on its way: the appends to `inputs_per_worker`, in
order. -/
def splitAll (c : RequestConfig) (graphWalk : Sym) (inputs : List GraphEdge) :
    Except PyError (List (Sym × Placed)) :=
  (inputs.zipIdx.mapM (splitEdge c graphWalk)).map List.flatten

/-- A worker's list of `inputs_per_worker`. -/
def sentTo (log : List (Sym × Placed)) (worker : Sym) : List Placed :=
  log.filterMap fun sent => if sent.1 = worker then some sent.2 else none

/-- What a worker joins its edges by. -/
structure EdgeKey where
  /-- The signal. -/
  name : Sym
  /-- The consumer. -/
  nextNode : Sym
  /-- The source rank. -/
  rank : ℕ
  deriving DecidableEq

/-- The key of an edge with descriptors. -/
def GraphEdge.key (edge : GraphEdge) : Option EdgeKey :=
  edge.tensorInfo.items.head?.map fun d => ⟨edge.name, edge.nextNode, d.sourceTpRank⟩

/-- Why a split raises. -/
inductive SplitError
  /-- A fan-out did. -/
  | fanout (error : PyError)
  /-- The assertion that contributors to one name agree on fan-in. -/
  | fanin
  /-- A strict `zip` of lists that differ in length. -/
  | lengths
  deriving DecidableEq

/-- An edge a worker keeps while it joins. -/
structure Merged where
  /-- Its key in `first_by_key`, none for a signal-only edge. -/
  key : Option EdgeKey
  /-- The edge. -/
  edge : GraphEdge
  /-- The places of its descriptors. -/
  positions : List (ℕ × ℕ)
  /-- Another edge was joined to it. -/
  joined : Bool

/-- An edge before anything is joined to it. -/
def Merged.first (x : Placed) : Merged := ⟨x.edge.key, x.edge, x.positions, false⟩

/-- Join an edge to the first of its key, or keep it as that. -/
def joinInto (id : ListId) (x : Merged) : List Merged → Except SplitError (List Merged)
  | [] => .ok [x]
  | first :: rest =>
    if x.key.isSome ∧ first.key = x.key then
      if first.edge.totalFanin = x.edge.totalFanin then
        .ok ({ first with
          edge := { first.edge with
            tensorInfo := ⟨id, first.edge.tensorInfo.items ++ x.edge.tensorInfo.items⟩ }
          positions := first.positions ++ x.positions
          joined := true } :: rest)
      else .error .fanin
    else (joinInto id x rest).map (first :: ·)

/-- The loop over a worker's edges, the next being its `k`-th. -/
def joinAll (worker : Sym) : ℕ → List Merged → List Placed → Except SplitError (List Merged)
  | _, merged, [] => .ok merged
  | k, merged, x :: edges =>
    match joinInto (.joined worker k) (.first x) merged with
    | .error e => .error e
    | .ok merged => joinAll worker (k + 1) merged edges

/-- The order of places. -/
def placeLe (p q : (ℕ × ℕ) × Descriptor) : Bool :=
  decide (p.1.1 < q.1.1 ∨ p.1.1 = q.1.1 ∧ p.1.2 ≤ q.1.2)

/-- A joined edge's descriptors put back in the order of the inputs. -/
def inOrder (worker : Sym) (merged : Merged × ℕ) : Except SplitError GraphEdge :=
  let edge := merged.1.edge
  if merged.1.joined then
    if merged.1.positions.length = edge.tensorInfo.items.length then
      .ok { edge with tensorInfo := ⟨.ordered worker merged.2,
        ((merged.1.positions.zip edge.tensorInfo.items).mergeSort placeLe).map Prod.snd⟩ }
    else .error .lengths
  else .ok edge

/-- A worker's edges joined by name, consumer and source rank. -/
def rejoin (worker : Sym) (edges : List Placed) : Except SplitError (List GraphEdge) :=
  match joinAll worker 0 [] edges with
  | .error e => .error e
  | .ok merged => merged.zipIdx.mapM (inOrder worker)

/-- `_split_inputs_to_workers`. -/
def splitInputsToWorkers (c : RequestConfig) (inputs : List GraphEdge) (graphWalk : Sym) :
    Except SplitError (List (Sym × List GraphEdge)) :=
  match splitAll c graphWalk inputs with
  | .error e => .error (.fanout e)
  | .ok log =>
    (log.map Prod.fst).dedup.mapM fun worker =>
      (rejoin worker (sentTo log worker)).map fun edges => (worker, edges)

end Mstar.SplitInputs

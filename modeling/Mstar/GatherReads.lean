import Mathlib.Data.List.Sort
import Mstar.GatherStore

/-!
# Reads handed on

Edges are read in the order in which they come and handed on in that order.
An edge of a sharded tensor with several source ranks is held back until
every rank's edge has come, and goes on with the gathered tensor.
-/

namespace Mstar.Gather

variable {α : Type}

/-- A consumer's input: a signal's name and the node that takes it. -/
abbrev Key := ℕ × ℕ

/-- An edge that brings tensors. -/
structure Edge where
  /-- The signal. -/
  name : ℕ
  /-- The node it goes to. -/
  nextNode : ℕ
  /-- How many source ranks contribute to what the node takes. -/
  totalFanin : ℕ
  /-- The tensors. -/
  tensorInfo : List TensorInfo
  /-- Which emission of its rank it is; not on the wire. -/
  round : ℕ
  deriving DecidableEq, Repr

/-- The input the edge is for. -/
def Edge.key (edge : Edge) : Key := (edge.name, edge.nextNode)

/-- The uuids of the edge's tensors. -/
def Edge.uuids (edge : Edge) : List Uuid := edge.tensorInfo.map (·.uuid)

/-- The rank the edge comes from, which its first tensor names. -/
def Edge.rank (edge : Edge) : ℕ := (edge.tensorInfo.head?.map (·.sourceTpRank)).getD 0

/-- An edge being read, with the tensors its source rank cut for it. -/
structure Read (α : Type) where
  /-- The edge. Its tensors name where the worker holds them. -/
  edge : Edge
  /-- What the rank sent; only recorded. -/
  sent : List (List α)
  deriving DecidableEq

/-- The shares of a read's edge. -/
def Read.shares (read : Read α) : List (Share α) := read.edge.uuids.zip read.sent

/-- The shards held back for one input. -/
structure BufferedShards (α : Type) where
  /-- How many ranks they come from. -/
  totalFanin : ℕ
  /-- The ranks that have come, in the order in which they came. -/
  ranks : List ℕ
  /-- Each rank's tensors. -/
  shards : ℕ → List (List α)
  /-- The reads they came with; only recorded. -/
  parts : List (Read α)

namespace BufferedShards

/-- No rank has come. -/
def start (totalFanin : ℕ) : BufferedShards α := ⟨totalFanin, [], fun _ => [], []⟩

/-- Append a rank's tensors to those it has brought. -/
def extend (buf : BufferedShards α) (read : Read α) (tensors : List (List α)) :
    BufferedShards α :=
  { buf with
    ranks := if read.edge.rank ∈ buf.ranks then buf.ranks else buf.ranks ++ [read.edge.rank]
    shards := Function.update buf.shards read.edge.rank
      (buf.shards read.edge.rank ++ tensors)
    parts := buf.parts ++ [read] }

/-- Every rank has come. -/
def isDone (buf : BufferedShards α) : Bool := buf.totalFanin ≤ buf.ranks.length

/-- The tensors at one position, put together in the order of their ranks. -/
def cat (shards : ℕ → List (List α)) (ranks : List ℕ) (i : ℕ) : List α :=
  ranks.flatMap fun rank => ((shards rank)[i]?).getD []

/-- Put the shards together. It raises if the ranks brought unequal numbers of
tensors. -/
def consolidate (buf : BufferedShards α) : Option (List (List α)) :=
  let keys := buf.ranks.insertionSort (· ≤ ·)
  let n := ((keys.head?.map buf.shards).getD []).length
  if keys.all fun rank => (buf.shards rank).length = n then
    some ((List.range n).map (cat buf.shards keys))
  else none

end BufferedShards

/-- An edge handed on to its node. -/
structure Emission (α : Type) where
  /-- The edge. -/
  edge : Edge
  /-- What the store holds under its uuids. -/
  tensors : List (List α)
  /-- The reads it was made of; only recorded. -/
  parts : List (Read α)

/-- The shares of an edge handed on. -/
def Emission.shares (em : Emission α) : List (Share α) := em.edge.uuids.zip em.tensors

/-- One request at a receiving worker. -/
structure Receiver (α : Type) where
  /-- What it keeps of its reads. -/
  store : Store α
  /-- The reads under way, oldest first. -/
  pending : List (Read α)
  /-- The shards held back, by input. -/
  buffers : Key → Option (BufferedShards α)
  /-- The edges handed on and not yet consumed. -/
  inUse : List (Emission α)
  /-- The reads taken up so far, oldest first. -/
  taken : List (Read α)
  /-- The edges handed on so far, oldest first. -/
  emitted : List (Emission α)

namespace Receiver

/-- The shares of the reads under way and of the edges in use. -/
def shares (w : Receiver α) : List (Share α) :=
  w.pending.flatMap (·.shares) ++ w.inUse.flatMap (·.shares)

/-- A request that was just registered. -/
def start : Receiver α := ⟨.empty, [], fun _ => none, [], [], []⟩

/-- Start reading an edge; one without tensors is not read. -/
def startRead (source : Uuid → List α) (w : Receiver α) (edge : Edge) : Receiver α :=
  if edge.tensorInfo = [] then w
  else
    let read := w.store.readInfos source edge.tensorInfo
    { w with
      store := read.1
      pending := w.pending ++
        [⟨{ edge with tensorInfo := read.2 }, edge.tensorInfo.map (·.rows source)⟩] }

/-- Hand an edge on. -/
def emit (w : Receiver α) (edge : Edge) (parts : List (Read α)) : Receiver α :=
  let em : Emission α := ⟨edge,
    edge.uuids.map fun uuid => ((w.store.held uuid).map (·.tensor)).getD [], parts⟩
  { w with inUse := w.inUse ++ [em], emitted := w.emitted ++ [em] }

/-- Put the gathered tensors in the store, each under a uuid of its own. -/
def putGathered (store : Store α) : List (List α) → Store α × List TensorInfo
  | [] => (store, [])
  | tensor :: tensors =>
    let rest := putGathered (store.putGathered tensor) tensors
    (rest.1, ⟨.own store.minted, ⟨0, tensor.length⟩, 0, true⟩ :: rest.2)

/-- Put the shards of an input together and hand the edge on with them. -/
def gather (w : Receiver α) (edge : Edge) (buf : BufferedShards α) : Option (Receiver α) :=
  buf.consolidate.map fun tensors =>
    let put := putGathered w.store tensors
    emit { w with store := put.1, buffers := Function.update w.buffers edge.key none }
      { edge with tensorInfo := put.2 } buf.parts

/-- Take a read's tensors into the shards of its input, and let go of them in
the store. -/
def buffer (w : Receiver α) (read : Read α) (buf : BufferedShards α) : Option (Receiver α) :=
  (read.edge.uuids.mapM fun uuid => (w.store.dropTransit.held uuid).map (·.tensor)).bind
    fun tensors =>
      let w := { w with store := read.edge.uuids.foldl .release w.store.dropTransit }
      let buf := buf.extend read tensors
      if buf.isDone then w.gather read.edge buf
      else some { w with buffers := Function.update w.buffers read.edge.key (some buf) }

/-- Every tensor of the edge was handed on before, with another edge. -/
def delivered (w : Receiver α) (edge : Edge) : Bool :=
  edge.uuids.all fun uuid => uuid ∈ w.store.readFinished

/-- The shards held back for an edge's input; several source ranks call for
some. -/
def bufferOf (w : Receiver α) (edge : Edge) : Option (BufferedShards α) :=
  match w.buffers edge.key with
  | some buf => some buf
  | none => if 1 < edge.totalFanin then some (.start edge.totalFanin) else none

/-- Take up the oldest read. Nothing comes of it where it raises. -/
def deliver (w : Receiver α) : Option (Receiver α) :=
  match w.pending with
  | [] => some w
  | read :: rest =>
    let w := { w with pending := rest, taken := w.taken ++ [read] }
    if w.delivered read.edge then some (w.emit read.edge [read])
    else
      let w := { w with store := read.edge.uuids.foldl .markRead w.store }
      match w.bufferOf read.edge with
      | none => some (w.emit read.edge [read])
      | some buf => w.buffer read buf

/-- The reads at hand are taken up, and their transit references dropped. -/
def settle (w : Receiver α) : Receiver α := { w with store := w.store.dropTransit }

/-- A consumer is done with the edge at this place. -/
def consume (w : Receiver α) (i : ℕ) : Receiver α :=
  match w.inUse[i]? with
  | none => w
  | some em =>
    { w with
      store := em.edge.uuids.foldl .release w.store
      inUse := w.inUse.eraseIdx i }

end Receiver

end Mstar.Gather

import Mstar.NodeCompletion
import Mstar.RefLedger

/-!
# A walk and its bookkeeper

One request's walk with the counts of its tensors' references. A completion
is routed in the order of the runtime: references taken, a finished graph
reset, every edge offered to the walk or counted for its readers, freed
references dropped, and what the producer and the finished loops held
exchanged for the readers there really are.
-/

namespace Mstar.Walk

open Shard (Sym TensorRef)

/-- Where the copies of an edge go: slices of its tensors, and how many
readers outside the walk each copy has. A re-injected input stays with the
worker: its node is in the worker graph, hence in the sharding group, that
sends it. -/
structure Fanout where
  copies : RoutedEdge → List RoutedEdge
  /-- Workers or clients that read a copy sent out of the worker graph. -/
  readers : RoutedEdge → ℕ
  slices : ∀ e, ∀ c ∈ copies e, c.persistForLoop = e.persistForLoop ∧
    ∀ t ∈ c.tensors, ∃ t' ∈ e.tensors, t'.uuid = t.uuid
  reinjects : ∀ e, e.persistForLoop = true → copies e = [e]

/-- No sharding: every edge is its only copy, with one reader. -/
def Fanout.whole : Fanout where
  copies e := [e]
  readers _ := 1
  slices := by
    intro e c hc
    rw [List.mem_singleton] at hc
    subst hc
    exact ⟨rfl, fun t ht => ⟨t, ht, rfl⟩⟩
  reinjects _ _ := rfl

/-- A completion whose edges are being routed. -/
structure Routing where
  /-- Copies still to route. -/
  edges : List RoutedEdge
  /-- Readers of each uuid routed so far. -/
  contributed : ℕ → ℕ
  /-- Uuids the producer holds. -/
  owned : List ℕ
  freed : List ℕ
  transferred : List ℕ
  fanout : Fanout

namespace Routing

/-- The references to settle: the producer's and the finished loops'. -/
def due (r : Routing) (u : ℕ) : ℕ := r.owned.count u + r.transferred.count u

/-- The readers of a copy that did not land in the walk. A refused local
copy goes on the wire. -/
def outside (r : Routing) (c : RoutedEdge) : ℕ :=
  match c.dest with
  | .localNode _ => 1
  | .empty => 0
  | _ => r.fanout.readers c

end Routing

/-- The input of this worker graph a copy is offered to. A streaming copy goes
to the stream's buffer. -/
def offered (g : CompiledGraph) (c : RoutedEdge) : Option (NodeId × ℕ) :=
  match c.dest with
  | .localNode d => if c.streaming then none else ((g.node d).slotOf c.name).map fun i => (d, i)
  | _ => none

/-- The edges of a completion that are routed. One that loops back to the
node itself, which never reads it, only feeds the loop's outputs. -/
def readEdges (g : CompiledGraph) (n : NodeId) (edges : List RoutedEdge) : List RoutedEdge :=
  edges.filter fun e => !(e.dest = .localNode n ∧ e.streaming = false ∧
    (g.node n).slotOf e.name = none)

/-- Produced tensors settled, each with the finished loops' holds on it; and
the holds that are left. -/
def settleOwned (contributed : ℕ → ℕ) :
    List ℕ → (ℕ → ℕ) → RefLedger ℕ → RefLedger ℕ × (ℕ → ℕ)
  | [], holds, l => (l, holds)
  | u :: us, holds, l => settleOwned contributed us (Function.update holds u 0)
      (l.settle u (1 + holds u) (contributed u))

/-- The holds that are left settled. -/
def settleRest (contributed holds : ℕ → ℕ) : List ℕ → RefLedger ℕ → RefLedger ℕ
  | [], l => l
  | u :: us, l => settleRest contributed holds us
      (if holds u = 0 then l else l.settle u (holds u) (contributed u))

/-- Every produced tensor settled, and then every other one handed on. -/
def settleAll (r : Routing) (l : RefLedger ℕ) : RefLedger ℕ :=
  let (l, holds) := settleOwned r.contributed r.owned (fun u => r.transferred.count u) l
  settleRest r.contributed holds r.transferred.dedup l

/-- A walk, its tensors' counts, and who holds them outside the walk. -/
structure WalkWorld where
  state : RequestState
  ledger : RefLedger ℕ
  /-- Routed readers that have not consumed yet. -/
  readers : ℕ → ℕ
  /-- References handed in with inputs a loop holds. -/
  handedIn : ℕ → ℕ
  /-- The completion being routed. -/
  routing : Option Routing

/-- What can happen to a walk. -/
inductive WalkOp
  /-- An edge arrives from outside, with one reference to each tensor. -/
  | ingest (node : NodeId) (slot : ℕ) (tensors : List TensorRef) (canBuffer finalChunk : Bool)
  | clearConsumed (node : NodeId)
  /-- A node completes with the tensors it produced. -/
  | complete (node : NodeId) (owned : List ℕ) (outTensors : List (List TensorRef)) (stride : ℕ)
      (fanout : Fanout)
  /-- The next copy is routed. -/
  | route
  | settle
  | reset
  /-- A routed reader is done. -/
  | consume (uuid : ℕ)
  | registerLoopFinish (l : LoopId)
  | capLoop (l : LoopId) (cap : ℕ)
  | setLoopCap (l : LoopId) (cap : ℕ)
  | takeForSchedule (node : NodeId)
  | pushBack (node : NodeId)
  | setInFlight (node : NodeId) (on : Bool)
  | speculate (source : NodeId) (edges : List RoutedEdge)
  | clearSpeculative

namespace WalkWorld

variable (g : CompiledGraph)

/-- A request's walk before anything arrives. -/
def fresh : WalkWorld := ⟨.new g, .empty, fun _ => 0, fun _ => 0, none⟩

/-- The references an ingest hands in for a loop to hold. -/
def heldRefs (node : NodeId) (slot : ℕ) (t : List TensorRef) (u : ℕ) : ℕ :=
  if slot ∈ g.heldMask node then refsTo u t else 0

/-- A copy goes out of the walk. -/
def sendOut (w : WalkWorld) (r : Routing) (c : RoutedEdge) (rest : List RoutedEdge) : WalkWorld :=
  let n := r.outside c
  { w with
    readers := fun u => w.readers u + n * refsTo u c.tensors
    routing := some { r with
      edges := rest, contributed := fun u => r.contributed u + n * refsTo u c.tensors } }

/-- A copy lands in the walk. -/
def landIn (w : WalkWorld) (r : Routing) (c : RoutedEdge) (rest : List RoutedEdge) (node : NodeId)
    (slot : ℕ) (state : RequestState) : WalkWorld :=
  { w with
    state := state
    handedIn := if c.persistForLoop then w.handedIn
      else fun u => w.handedIn u + heldRefs g node slot c.tensors u
    routing := some { r with
      edges := rest, contributed := fun u => r.contributed u + refsTo u c.tensors } }

/-- The walk takes a copy if it can. -/
def routeCopy (w : WalkWorld) (r : Routing) (c : RoutedEdge) (rest : List RoutedEdge) : WalkWorld :=
  match offered g c with
  | none => w.sendOut r c rest
  | some (node, slot) => match w.state.ingest g node slot c.tensors true false with
    | none => w.sendOut r c rest
    | some state => w.landIn g r c rest node slot state

/-- What happens. -/
def step (w : WalkWorld) : WalkOp → WalkWorld
  | .ingest node slot t canBuffer finalChunk =>
    match w.state.ingest g node slot t canBuffer finalChunk with
    | none => w
    | some state => { w with
        state := state
        ledger := w.ledger.storeAll (uuids t)
        handedIn := fun u => w.handedIn u + heldRefs g node slot t u }
  | .clearConsumed node =>
    let (freed, state) := w.state.clearConsumedInputs g node
    { w with state := state, ledger := w.ledger.dropAll freed }
  | .complete node owned outTensors stride fanout =>
    let (c, state) := w.state.completeStrided g node outTensors stride
    { w with
      state := state
      ledger := (w.ledger.storeAll owned).takeAll c.taken
      routing := some ⟨(readEdges g node c.edges).flatMap fanout.copies, fun _ => 0, owned, c.freed,
        c.transferred, fanout⟩ }
  | .route =>
    match w.routing with
    | some r => match r.edges with
      | c :: rest => w.routeCopy g r c rest
      | [] => w
    | none => w
  | .settle =>
    match w.routing with
    | some r => { w with ledger := settleAll r (w.ledger.dropAll r.freed), routing := none }
    | none => w
  | .reset => { w with state := w.state.reset g }
  | .consume u => { w with
      ledger := w.ledger.drop u 1
      readers := Function.update w.readers u (w.readers u - 1) }
  | .registerLoopFinish l => { w with state := w.state.registerLoopFinish l }
  | .capLoop l cap => { w with state := w.state.capLoop l cap }
  | .setLoopCap l cap => { w with state := w.state.setLoopCap l cap }
  | .takeForSchedule node => { w with state := w.state.takeForSchedule node }
  | .pushBack node => { w with state := w.state.pushBack node }
  | .setInFlight node on => { w with state := w.state.setInFlight node on }
  | .speculate source edges => { w with state := (w.state.ingestForSpeculation g source edges).2 }
  | .clearSpeculative => { w with state := w.state.clearSpeculativeInputs }

/-- Whether the walk has a slot for a copy. -/
def Accepts (w : WalkWorld) (c : RoutedEdge) : Prop :=
  ∃ x ∈ offered g c, (w.state.ingest g x.1 x.2 c.tensors true false).isSome

/-- When it can happen. A completion is routed and settled before anything
else happens to the walk, and each tensor it produced is stored once. -/
def Enabled (w : WalkWorld) : WalkOp → Prop
  | .ingest node slot _ _ _ => w.routing.isNone ∧ slot < (g.node node).inputs.length
  | .complete _ owned outTensors _ _ => w.routing.isNone ∧ owned.Nodup ∧
      ∀ ts ∈ outTensors, ∀ t ∈ ts, t.uuid ∈ owned
  | .route => ∃ r ∈ w.routing, r.edges ≠ []
  | .settle => ∃ r ∈ w.routing, r.edges = []
  | .reset => w.state.isDone = true
  | .consume u => w.routing.isNone ∧ 0 < w.readers u
  | _ => w.routing.isNone

/-- A re-injected input finds its node's slot free. -/
def Reinjects (w : WalkWorld) : WalkOp → Prop
  | .route => ∀ r ∈ w.routing, ∀ c ∈ r.edges.head?, c.persistForLoop = true → w.Accepts g c
  | _ => True

instance (w : WalkWorld) (c : RoutedEdge) : Decidable (w.Accepts g c) :=
  inferInstanceAs (Decidable (∃ x ∈ offered g c,
    (w.state.ingest g x.1 x.2 c.tensors true false).isSome))

instance (w : WalkWorld) : DecidablePred (w.Enabled g)
  | .ingest node slot _ _ _ =>
    inferInstanceAs (Decidable (w.routing.isNone ∧ slot < (g.node node).inputs.length))
  | .complete _ owned outTensors _ _ => inferInstanceAs (Decidable (w.routing.isNone ∧
      owned.Nodup ∧ ∀ ts ∈ outTensors, ∀ t ∈ ts, t.uuid ∈ owned))
  | .route => inferInstanceAs (Decidable (∃ r ∈ w.routing, r.edges ≠ []))
  | .settle => inferInstanceAs (Decidable (∃ r ∈ w.routing, r.edges = []))
  | .reset => inferInstanceAs (Decidable (w.state.isDone = true))
  | .consume u => inferInstanceAs (Decidable (w.routing.isNone ∧ 0 < w.readers u))
  | .clearConsumed .. | .registerLoopFinish .. | .capLoop .. | .setLoopCap .. | .takeForSchedule ..
  | .pushBack .. | .setInFlight .. | .speculate .. | .clearSpeculative =>
    inferInstanceAs (Decidable (w.routing.isNone = true))

instance (w : WalkWorld) : DecidablePred (w.Reinjects g)
  | .route => inferInstanceAs (Decidable (∀ r ∈ w.routing, ∀ c ∈ r.edges.head?,
      c.persistForLoop = true → w.Accepts g c))
  | .ingest .. | .clearConsumed .. | .complete .. | .settle | .reset | .consume ..
  | .registerLoopFinish .. | .capLoop .. | .setLoopCap .. | .takeForSchedule .. | .pushBack ..
  | .setInFlight .. | .speculate .. | .clearSpeculative => inferInstanceAs (Decidable True)

/-- The worlds that runs lead to whose steps all meet a condition. -/
inductive Reachable (cond : WalkWorld → WalkOp → Prop) : WalkWorld → Prop
  | fresh : Reachable cond (fresh g)
  | step {w : WalkWorld} {op : WalkOp} : Reachable cond w → w.Enabled g op → cond w op →
      Reachable cond (w.step g op)

/-- A run, as long as each step can happen and meets a condition. -/
def run (cond : WalkWorld → WalkOp → Prop) [∀ w op, Decidable (cond w op)] (w : WalkWorld) :
    List WalkOp → Option WalkWorld
  | [] => some w
  | op :: ops => if w.Enabled g op ∧ cond w op then run cond (w.step g op) ops else none

variable {g} in
/-- A run leads to reachable worlds. -/
theorem Reachable.run {cond : WalkWorld → WalkOp → Prop} [∀ w op, Decidable (cond w op)]
    {w w' : WalkWorld} (h : Reachable g cond w) {ops : List WalkOp}
    (hrun : w.run g cond ops = some w') : Reachable g cond w' := by
  induction ops generalizing w with
  | nil =>
    obtain rfl := Option.some.inj hrun
    exact h
  | cons op ops ih =>
    unfold WalkWorld.run at hrun
    split at hrun
    · next hstep => exact ih (h.step hstep.1 hstep.2) hrun
    · exact absurd hrun (by simp)

/-- Somebody holds a tensor: a filled slot, a cache, a saved external input, a
reader, or an edge on its way. -/
inductive Held (w : WalkWorld) (u : ℕ) : Prop
  | slot {n i ts} : n < g.nodes.length → i < (g.node n).inputs.length → w.state.Arrived n i ts →
      0 < refsTo u ts → Held w u
  | cached {l} : l < g.loops.length → 0 < cacheRefs (w.state.loops l).cached u → Held w u
  | accumulated {l} : l < g.loops.length → 0 < cacheRefs (w.state.loops l).accum u → Held w u
  | saved {l x} : x ∈ (w.state.loops l).extInputs → 0 < refsTo u x.2.2 → Held w u
  | reader : 0 < w.readers u → Held w u
  | edge {r e} : w.routing = some r → e ∈ r.edges → 0 < refsTo u e.tensors → Held w u

end WalkWorld

end Mstar.Walk
